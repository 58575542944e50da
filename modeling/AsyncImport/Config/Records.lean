import AsyncImport.Value.Basic

/-!
# Records of the configuration

Settings and field declarations as a host sees them; their fields may hold any value.
-/

namespace AsyncImport

/-- The settings of a manager. -/
structure Settings where
  pluginDelimiter : Value := .str "!"
  logLevel : Value := .str "INFO"
  logFormat : Value := .str "console"
  /-- Name patterns that stages pass over, by the name of the stage. -/
  ignore : Value
  deriving DecidableEq, Repr, Inhabited

/-- The declaration of a configuration field. -/
structure FieldRecord where
  type : Value
  default : Value
  description : Value := .str ""
  min : Value := .none
  max : Value := .none
  choices : Value := .none
  deriving DecidableEq, Repr, Inhabited

end AsyncImport
