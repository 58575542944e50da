import AsyncImport.Config.Documented

/-!
# Settings

The settings of a manager are one table of a configuration, checked against a fixed schema. They can
be read from a file, and written there with their defaults and an explanation of each.
-/

namespace AsyncImport

open Edit

namespace Settings

def tableName : String := "modloader"

/-- A field of the settings with what is said about it. -/
structure Entry where
  name : String
  field : Field
  description : String

def schema : List Entry :=
  [⟨"plugin_delimiter", { type := .str, default := .str "!", min := .int 1 },
     "Separates plugin names from the module name, as in 'less!style.less'"⟩,
   ⟨"log_level",
     { type := .str, default := .str "INFO"
       choices := .list (["DEBUG", "INFO", "WARNING", "ERROR"].map .str) },
     "Logging level used by setup_logging()"⟩,
   ⟨"log_format",
     { type := .str, default := .str "console", choices := .list (["console", "json"].map .str) },
     "Log renderer"⟩,
   ⟨"ignore", { type := .dict, default := .dict [] [] },
     "Module name patterns each stage skips plugins for, e.g. fetch = ['vendor/**']"⟩]

def declared? (k : Key) : Option Entry := schema.find? fun e => Key.text e.name = k

/-- Checks a table of settings: first that all names are known, then each value. -/
def check (table : Dict) : Edit Unit := do
  table.entries.forM fun e => do
    if (declared? e.1).isNone then throw (.validation (.unknownField (← spoken e.2.1)))
  table.entries.forM fun e => do
    if let some s := declared? e.1 then
      Schema.inField s.name (liftExcept (s.field.validate ((← heap).data e.2.2)))

def ignoredEntry (stage patterns : Value) : Edit (Hook × Value) := do
  let h ← Hook.parse stage
  return (h, ← newList ((← patternList patterns).map .str))

def ignored (table : Value) : Edit Value := do
  let entries := match (← heap).dict? table with
    | some d => d.items
    | none => []
  let d ← entries.foldlM (fun (d : Dict) e => do
    let (h, patterns) ← tryCatch (ignoredEntry e.1 e.2) fun
      | .registration cause => throw (.validation (.ignored cause))
      | f => throw f
    return d.put (Key.text h.text) (.str h.text) patterns) {}
  newDict d

def ofTable (given : Value) : Edit (Ref .settings) := do
  let table ← dictOf given
  check table
  let valueOf (k : String) (default : Value) : Value := (table.find? (Key.text k)).getD default
  let ignore ← ignored (valueOf "ignore" .none)
  Edit.create .settings
    { pluginDelimiter := valueOf "plugin_delimiter" (.str "!")
      logLevel := valueOf "log_level" (.str "INFO")
      logFormat := valueOf "log_format" (.str "console")
      ignore := ignore }

/-- The settings in a file; a file without the table stands for the defaults. -/
def readSettings (path : FilePath) : Edit (Ref .settings) := do
  let document ← ofData (← readTomlData path)
  let found := ((← heap).dict? document).bind fun d => d.find? (Key.text tableName)
  match found with
  | none => ofTable (← newDict {})
  | some (.obj .dict r) => ofTable (.obj .dict r)
  | some _ => throw (.validation (.section tableName))

def ofFile (path : Value) : Edit (Ref .settings) := do
  tryCatch (do readSettings (← pathOf path)) fun f => do
    match f.kind with
    | .toml | .schema | .validation => throw (.settingsFile (← spoken path) f.message)
    | _ => throw f

def toTable (s : Ref .settings) : Edit Value := do
  let c ← read s
  match (← heap).dict? c.ignore with
  | none => throw .missing
  | some d =>
    let entries ← d.entries.mapM fun e => do
      return (e.1, e.2.1, ← newList (← items e.2.2))
    let ignore ← newDict ⟨entries⟩
    newDict (Dict.ofTexts
      [("plugin_delimiter", c.pluginDelimiter), ("log_level", c.logLevel),
       ("log_format", c.logFormat), ("ignore", ignore)])

def defaultText : Except Fault String := do
  let nodes ← schema.mapM fun e =>
    Toml.fieldNodes (.str e.name) (.str e.description) e.field.choices e.field.default
  match Toml.documentedTable ("Configuration for " ++ tableName) (.str tableName) nodes.flatten with
  | .ok s => return s
  | .error f => throw f.fault

def writeDefaults (path : Value) : Edit Unit := do
  let text ← liftExcept defaultText
  tryCatch (writeToml path (.str text)) fun
    | .file cause => throw (.settingsOutput cause)
    | f => throw f

end Settings
end AsyncImport
