import AsyncImport.Task.Await

/-!
# Calls

Arguments are given by position or by name and are bound to the parameters of a method. An object's
members are its attributes, which can be read and sometimes set, and its methods.
-/

namespace AsyncImport

/-- The name of a member or of an argument: its text, and the word that it is, if it is one. -/
structure Label where
  text : String
  word : Option Word := none
  deriving DecidableEq, Repr, Inhabited

structure Arguments where
  items : List Value := []
  named : List (Label × Value) := []

structure Parameter where
  word : Word
  /-- What stands for an argument that is left out; without it the argument must be given. -/
  default : Option (Edit Value) := none
  /-- The argument cannot be given by position. -/
  namedOnly : Bool := false

namespace Parameter

def withFresh (w : Word) (v : Edit Value) : Parameter := { word := w, default := some v }

def withDefault (w : Word) (v : Value := .none) : Parameter := withFresh w (return v)

def takeNamed (p : Parameter) (named : List (Label × Value)) :
    Option Value × List (Label × Value) :=
  ((named.find? fun a => a.1.word = some p.word).map Prod.snd,
    named.filter fun a => a.1.word ≠ some p.word)

/-- The values of parameters. Every argument must have its parameter, and only one. -/
def bind : List Parameter → List Value → List (Label × Value) → Edit (List Value)
  | [], [], [] => return []
  | [], _, _ => throw .typeMismatch
  | p :: ps, items, named => do
    let (byName, named) := p.takeNamed named
    let (byPlace, items) := if p.namedOnly then (none, items) else (items.head?, items.tail)
    match byPlace, byName with
    | some _, some _ => throw .typeMismatch
    | some v, none | none, some v => return v :: (← bind ps items named)
    | none, none =>
      let rest ← bind ps items named
      match p.default with
      | some v => return (← v) :: rest
      | none => throw .typeMismatch

end Parameter

/-- What can be called with arguments. -/
structure Method where
  parameters : List Parameter
  run : List Value → Routine Value

namespace Method

def none (f : Routine Value) : Method := ⟨[], fun _ => f⟩

def one (p : Parameter) (f : Value → Routine Value) : Method := ⟨[p], fun vs => f (vs.getD 0 .none)⟩

def two (p q : Parameter) (f : Value → Value → Routine Value) : Method :=
  ⟨[p, q], fun vs => f (vs.getD 0 .none) (vs.getD 1 .none)⟩

def three (p q r : Parameter) (f : Value → Value → Value → Routine Value) : Method :=
  ⟨[p, q, r], fun vs => f (vs.getD 0 .none) (vs.getD 1 .none) (vs.getD 2 .none)⟩

def call (m : Method) (a : Arguments) : Routine Value := do
  m.run (← Parameter.bind m.parameters a.items a.named)

end Method

/-- The members of a value. -/
structure Interface where
  attributes : List (Word × Edit Value) := []
  methods : List (Word × Method) := []
  setters : List (Word × (Value → Edit Unit)) := []

namespace Interface

def attribute? (i : Interface) (l : Label) : Option (Edit Value) :=
  l.word.bind fun w => i.attributes.lookup w

def method? (i : Interface) (l : Label) : Option Method :=
  l.word.bind fun w => i.methods.lookup w

def setter? (i : Interface) (l : Label) : Option (Value → Edit Unit) :=
  l.word.bind fun w => i.setters.lookup w

end Interface

abbrev required (w : Word) : Parameter := { word := w }

abbrev nullable (w : Word) : Parameter := Parameter.withDefault w

abbrev labelled (w : Word) : Parameter := { nullable w with namedOnly := true }

def nothing (x : Routine Unit) : Routine Value := do
  x
  return .none

def answer (x : Routine Bool) : Routine Value := return .bool (← x)

def later (a : Activity) : Routine Value := Edit.suspended a

end AsyncImport
