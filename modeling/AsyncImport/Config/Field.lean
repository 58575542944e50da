import AsyncImport.Draft.Options
import AsyncImport.Plugin.Registration

/-!
# Fields and tables of the configuration

A field has a type, a default, bounds on its length and possibly a list of choices. A table is
checked against a schema, a mapping of names to fields, and completed with the defaults.
-/

namespace AsyncImport

/-- A field, with everything that its values are checked against. -/
structure Field where
  type : DataType
  default : Data
  min : Data := .none
  max : Data := .none
  choices : Data := .none

namespace Field

def isBounded (f : Field) : Bool := f.type = .str || f.type = .list

def choices? (f : Field) : Option (List Data) :=
  match f.choices with
  | .list cs | .tuple cs => some cs
  | _ => none

/-- Whether a length is below a number; nothing if it is no number. -/
def isBelow (length : Nat) : Data → Option Bool
  | .int i => some (length < i)
  | .bool b => some (length < Data.ofBool b)
  | .real x => some ((Priority.int length).lt (.real x))
  | _ => none

/-- Whether a length is above a number; nothing if it is no number. -/
def isAbove (length : Nat) : Data → Option Bool
  | .int i => some (i < length)
  | .bool b => some (Data.ofBool b < length)
  | .real x => some ((Priority.real x).lt (.int length))
  | _ => none

def check (f : Field) : Except Fault Unit := do
  unless f.default.isA f.type do throw (.schema (.default f.default.shown f.type.text))
  unless f.isBounded || (f.min.isNone && f.max.isNone) do throw (.schema (.bounds f.type.text))
  match f.choices with
  | .none => return ()
  | .list cs =>
    match cs.find? fun c => !c.isA f.type with
    | some c => throw (.schema (.choice c.shown f.type.text))
    | none =>
      unless f.default.isAmong cs do
        throw (.schema (.defaultChoice f.default.shown f.choices.spoken))
  | _ => throw (.schema .choices)

def checkLength (f : Field) (v : Data) : Except Fault Unit := do
  let kind := if f.type = .str then "String" else "List"
  let length := v.length?.getD 0
  unless f.min.isNone do
    match isBelow length f.min with
    | some true => throw (.validation (.short kind (toString length) f.min.spoken))
    | some false => pure ()
    | none => throw .typeMismatch
  unless f.max.isNone do
    match isAbove length f.max with
    | some true => throw (.validation (.long kind (toString length) f.max.spoken))
    | some false => pure ()
    | none => throw .typeMismatch

/-- Refuses a value that is not of the field's type, not among its choices, or too short or long. A
truth value is not taken for an integer. -/
def validate (f : Field) (v : Data) : Except Fault Unit := do
  if !v.isA f.type || (f.type ≠ .bool && v.isA .bool) then
    throw (.validation (.type f.type.text v.typeName))
  match f.choices? with
  | some cs => unless v.isAmong cs do throw (.validation (.choice v.shown f.choices.spoken))
  | none => pure ()
  if f.isBounded then f.checkLength v

end Field

open Edit

namespace FieldRecord

def field (r : FieldRecord) : Edit Field := do
  let h ← heap
  match r.type with
  | .dataType t =>
    return ⟨t, h.data r.default, h.data r.min, h.data r.max, h.data r.choices⟩
  | _ => throw .typeMismatch

def create (r : FieldRecord) : Edit (Ref .field) := do
  let f ← r.field
  liftExcept f.check
  Edit.create .field r

def validate (r : Ref .field) (v : Value) : Edit Unit := do
  let f ← (← read r).field
  liftExcept (f.validate ((← heap).data v))

end FieldRecord

namespace Edit

def copyWithin : Nat → Value → Edit Value
  | 0, v => return v
  | fuel + 1, v => do
    match v with
    | .obj .list r => newList (← (← read r).mapM (copyWithin fuel))
    | .obj .tuple r => newTuple (← (← read r).mapM (copyWithin fuel))
    | .obj .dict r =>
      let entries ← (← read r).entries.mapM fun e => do
        return (e.1, e.2.1, ← copyWithin fuel e.2.2)
      newDict ⟨entries⟩
    | _ => return v

def copy (v : Value) : Edit Value := do copyWithin (← heap).depth v

end Edit

abbrev Schema := List (Key × Value × Ref .field)

namespace Schema

def ofDict (d : Dict) : Edit Schema :=
  d.entries.mapM fun e => do
    match e.2.2 with
    | .obj .field f => return (e.1, e.2.1, f)
    | _ => throw .missing

def defaults (s : Schema) : Edit Dict :=
  s.foldlM (fun (d : Dict) (f : Key × Value × Ref .field) => do
    return d.put f.1 f.2.1 (← copy (← read f.2.2).default)) {}

def inField (name : String) (e : Edit Unit) : Edit Unit :=
  tryCatch e fun
    | .validation cause => throw (.validation (.inField name cause))
    | f => throw f

def complete (s : Schema) (table : Dict) : Edit Dict := do
  table.entries.forM fun e => do
    if (s.lookup e.1).isNone then throw (.validation (.unknownField (← spoken e.2.1)))
  table.entries.foldlM (fun (d : Dict) e => do
    match s.lookup e.1 with
    | some (_, f) => inField (← spoken e.2.1) (FieldRecord.validate f e.2.2)
    | none => throw (.plain .key)
    return d.put e.1 e.2.1 e.2.2) (← s.defaults)

end Schema

def validateTable (table schema : Value) : Edit Value := do
  let h ← heap
  let names ← items table
  names.forM fun n => do
    let known ← match h.dict? schema with
      | some d => do pure (d.contains (← key n))
      | none => do pure (h.among n (← items schema))
    unless known do throw (.validation (.unknownField (← spoken n)))
  match h.dict? table, h.dict? schema with
  | some t, some s => newDict (← (← Schema.ofDict s).complete t)
  | _, _ => throw .missing

def defaultTable (schema : Value) : Edit Value := do
  match (← heap).dict? schema with
  | some s => newDict (← (← Schema.ofDict s).defaults)
  | none => throw .missing

end AsyncImport
