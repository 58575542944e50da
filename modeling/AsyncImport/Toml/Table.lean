import AsyncImport.Assoc
import AsyncImport.Value.Data

/-!
# Tables under construction

A document declares tables by headers and dotted keys. What was declared once may not be declared
again in the same way, and arrays and inline tables are closed: `Marks` holds what is known of each
name.
-/

namespace AsyncImport.Toml

abbrev Table := Assoc String Data

abbrev Path := List String

namespace Table

def toData (t : Table) : Data := .dict (t.keys.map .str) t.values

def ofData? : Data → Option Table
  | .dict ks vs => some ⟨(ks.filterMap fun | .str k => some k | _ => none).zip vs⟩
  | _ => none

/-- Changes the table that a value is, or the last table of an array of tables where these are
allowed. -/
def changeWithin (arrays : Bool) (f : Table → Option Table) (d : Data) : Option Data := do
  match d with
  | .list items =>
    if !arrays then none
    else return .list (items.dropLast ++ [(← f (← ofData? (← items.getLast?))).toData])
  | _ => return (← f (← ofData? d)).toData

/-- Changes the table at a path; tables on the way are made where they are missing. -/
def changeAt (arrays : Bool) (f : Table → Option Table) : Path → Table → Option Table
  | [], t => f t
  | k :: ks, t => do
    match t.get? k with
    | none => return t.insert k (← changeAt arrays f ks {}).toData
    | some d => return t.insert k (← changeWithin arrays (changeAt arrays f ks) d)

def add (k : String) (d : Data) (t : Table) : Option Table :=
  if t.contains k then none else some (t.insert k d)

def addItem (k : String) (t : Table) : Option Table :=
  match t.get? k with
  | none => some (t.insert k (.list [toData {}]))
  | some (.list items) => some (t.insert k (.list (items ++ [toData {}])))
  | some _ => none

end Table

/-- What is known of a name. -/
inductive Mark where
  /-- It is a table that was declared. -/
  | declared
  /-- It is an array or an inline table; so is everything within it. -/
  | closed
  deriving DecidableEq, Repr

abbrev Marks := List (Path × Mark)

namespace Marks

def isDeclared (ms : Marks) (p : Path) : Bool := ms.any fun m => m.1 = p && m.2 = .declared

def isClosed (ms : Marks) (p : Path) : Bool := ms.any fun m => m.2 = .closed && m.1.isPrefixOf p

def forget (ms : Marks) (p : Path) : Marks := ms.filter fun m => !p.isPrefixOf m.1

end Marks

def isClosedData : Data → Bool
  | .dict .. | .list _ => true
  | _ => false

/-- A document as far as it was read. -/
structure Document where
  root : Table := {}
  marks : Marks := []
  /-- Names declared by dotted keys in the present section; they count as declared from the next one
  on. -/
  dotted : List Path := []
  section_ : Path := []

namespace Document

def endSection (d : Document) : Document :=
  { d with marks := d.marks ++ d.dotted.map (·, .declared), dotted := [] }

def openTable (d : Document) (p : Path) : Option Document := do
  if d.marks.isDeclared p || d.marks.isClosed p then none
  let root ← Table.changeAt true some p d.root
  return { d with root := root, marks := d.marks ++ [(p, .declared)], section_ := p }

def openItem (d : Document) (p : Path) : Option Document := do
  if d.marks.isClosed p then none
  let last ← p.getLast?
  let root ← Table.changeAt true (Table.addItem last) p.dropLast d.root
  return { d with root := root, marks := d.marks.forget p ++ [(p, .declared)], section_ := p }

def beginnings (p : Path) : List Path := (List.range (p.length - 1)).map fun n => p.take (n + 1)

def assign (d : Document) (p : Path) (v : Data) : Option Document := do
  let within := (beginnings p).map (d.section_ ++ ·)
  if within.any d.marks.isDeclared then none
  let parent := d.section_ ++ p.dropLast
  if d.marks.isClosed parent then none
  let last ← p.getLast?
  let root ← Table.changeAt true (Table.add last v) parent d.root
  let closed := if isClosedData v then [(d.section_ ++ p, Mark.closed)] else []
  return { d with root := root, marks := d.marks ++ closed, dotted := d.dotted ++ within }

end Document
end AsyncImport.Toml
