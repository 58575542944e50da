import AsyncImport.Value.Key

/-!
# The store of modules in progress

Each name has at most one record, with a phase and an item: the future of a fetch, or a draft. The
store does not check moves; its users look at the phase first.
-/

namespace AsyncImport

structure Record where
  /-- The name as it was first given. -/
  label : Value
  phase : Value
  item : Value
  deriving DecidableEq, Repr

/-- What was stored under a name, and what it took the place of. -/
structure Storing where
  name : Key
  before : Option Record
  after : Record
  deriving DecidableEq, Repr

structure Store where
  records : Assoc Key Record := {}
  /-- Everything that was stored, in order. -/
  stored : List Storing := []
  deriving DecidableEq, Repr, Inhabited

namespace Store

def contains (s : Store) (name : Key) : Bool := s.records.contains name

def holds (s : Store) (phase : Value) (name : Key) : Bool :=
  (s.records.get? name).any fun r => r.phase = phase

def get? (s : Store) (phase : Value) (name : Key) : Option Value :=
  match s.records.get? name with
  | some r => if r.phase = phase then some r.item else none
  | none => none

def set (s : Store) (phase : Value) (name : Key) (label item : Value) : Store :=
  let before := s.records.get? name
  let after : Record := ⟨(before.map Record.label).getD label, phase, item⟩
  ⟨s.records.insert name after, s.stored ++ [⟨name, before, after⟩]⟩

def remove (s : Store) (name : Key) : Store := { s with records := s.records.erase name }

def phase? (s : Store) (name : Key) : Option Value := (s.records.get? name).map Record.phase

def item? (s : Store) (name : Key) : Option Value := (s.records.get? name).map Record.item

def names (s : Store) : List Value := s.records.values.map Record.label

def namesIn (s : Store) (phase : Value) : List Value :=
  (s.records.values.filter fun r => r.phase = phase).map Record.label

end Store
end AsyncImport
