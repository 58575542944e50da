import AsyncImport.Assoc
import AsyncImport.Value.Basic

/-!
# Keys

Values that can stand as keys of a mapping, in a form in which equal values are the same: `1`, `1.0`
and `true` are one key. A tuple is spelt by its length and then the keys of its items.
-/

namespace AsyncImport

inductive Atom where
  | none
  | int (i : Int)
  | real (x : Binary)
  | str (s : String)
  | bytes (b : List UInt8)
  | tuple (length : Nat)
  | record (type : String)
  | other (v : Value)
  deriving DecidableEq, Repr

abbrev Key := List Atom

abbrev Key.text (s : String) : Key := [.str s]

/-- A mapping: each key with the value that spelt it first, and its value. -/
abbrev Dict := Assoc Key (Value × Value)

namespace Dict

def labels (d : Dict) : List Value := d.values.map Prod.fst

def items (d : Dict) : List (Value × Value) := d.values

def find? (d : Dict) (k : Key) : Option Value := (d.get? k).map Prod.snd

def put (d : Dict) (k : Key) (label v : Value) : Dict :=
  d.insert k (((d.get? k).map Prod.fst).getD label, v)

def ofTexts (es : List (String × Value)) : Dict :=
  es.foldl (fun d e => d.put (Key.text e.1) (.str e.1) e.2) {}

end Dict
end AsyncImport
