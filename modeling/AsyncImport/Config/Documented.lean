import AsyncImport.Config.Field
import AsyncImport.Config.TomlFile

/-!
# Documented tables

A schema is written as a TOML table that explains itself: above each field stand its description and
its choices, and each field has its configured or its default value.
-/

namespace AsyncImport

open Edit

namespace Toml

def fieldComments (description choices : Data) : Except Fault (List Node) := do
  let about ← if !description.truthy then pure [] else match description with
    | .str s => pure [comment s]
    | _ => throw .typeMismatch
  let among ← match choices with
    | .none => pure []
    | .list cs => pure [comment ("Choices: " ++ ", ".intercalate (cs.map Data.spoken))]
    | _ => throw .typeMismatch
  return about ++ among

def fieldNodes (name description choices value : Data) : Except Fault (List Node) := do
  let comments ← fieldComments description choices
  match fieldLine name value with
  | .ok line => return comments ++ [line]
  | .error f => throw f.fault

end Toml

/-- The text of a documented table; fields without a configured value have their defaults. -/
def tableText (section_ schema config : Value) : Edit String := do
  let h ← heap
  let heading := "Configuration for " ++ h.spoken section_
  match h.dict? schema with
  | none => throw .missing
  | some d =>
    let fields ← Schema.ofDict d
    let nodes ← fields.mapM fun (f : Key × Value × Ref .field) => do
      let r ← read f.2.2
      let value ← match h.dict? config with
        | some c => pure ((c.find? f.1).getD r.default)
        | none => throw .missing
      liftExcept (Toml.fieldNodes (h.data f.2.1) (h.data r.description) (h.data r.choices)
        (h.data value))
    match Toml.documentedTable heading (h.data section_) nodes.flatten with
    | .ok s => return s
    | .error f => throw f.fault

end AsyncImport
