import AsyncImport.Text.Quoted
import AsyncImport.Value.Basic

/-!
# Data

What a value holds at one moment: lists and mappings with their items in place of references. Two
values are equal for a host when their data are; `Data.shown` is the text that messages give of a
value.
-/

namespace AsyncImport

inductive Data where
  | none
  | bool (b : Bool)
  | int (i : Int)
  | real (x : Binary)
  | str (s : String)
  | bytes (b : List UInt8)
  | list (items : List Data)
  | tuple (items : List Data)
  /-- A mapping, by its keys and the values in their order. -/
  | dict (keys values : List Data)
  /-- A record that is compared by its fields. -/
  | record (type : String) (names : List String) (values : List Data)
  /-- Something compared by identity, with its type, its text in full and its text within other
  text. -/
  | atom (v : Value) (type shown spoken : String)
  /-- A container within itself. -/
  | cycle
  deriving Inhabited

namespace Data

def realIs (x : Binary) (i : Int) : Bool := x.toInt? = some i

def ofBool (b : Bool) : Int := if b then 1 else 0

def realsEqual (x y : Binary) : Bool :=
  !x.isNaN && !y.isNaN && (x = y || (x.isZero && y.isZero))

def itemsPass : List (Data → Bool) → List Data → Bool
  | [], [] => true
  | t :: ts, x :: xs => t x && itemsPass ts xs
  | _, _ => false

def entryPasses (key value : Data → Bool) : List Data → List Data → Bool
  | k :: ks, v :: vs => if key k then value v else entryPasses key value ks vs
  | _, _ => false

def entriesPass (ks vs : List Data) : List (Data → Bool) → List (Data → Bool) → Bool
  | key :: keys, value :: values => entryPasses key value ks vs && entriesPass ks vs keys values
  | _, _ => true

mutual

/-- Equality of data: numbers by value, mappings whatever their order, records by field. -/
def same : Data → Data → Bool
  | .none => fun | .none => true | _ => false
  | .bool a => fun
    | .bool b => a = b
    | .int i => ofBool a = i
    | .real x => realIs x (ofBool a)
    | _ => false
  | .int i => fun
    | .bool b => i = ofBool b
    | .int j => i = j
    | .real x => realIs x i
    | _ => false
  | .real x => fun
    | .bool b => realIs x (ofBool b)
    | .int i => realIs x i
    | .real y => realsEqual x y
    | _ => false
  | .str s => fun | .str t => s = t | _ => false
  | .bytes a => fun | .bytes b => a = b | _ => false
  | .list xs => fun | .list ys => itemsPass (tests xs) ys | _ => false
  | .tuple xs => fun | .tuple ys => itemsPass (tests xs) ys | _ => false
  | .dict ks vs => fun
    | .dict ls ws => ks.length = ls.length && entriesPass ls ws (tests ks) (tests vs)
    | _ => false
  | .record t ns xs => fun
    | .record u ms ys => t = u && ns = ms && itemsPass (tests xs) ys
    | _ => false
  | .atom v _ _ _ => fun | .atom w _ _ _ => v = w | _ => false
  | .cycle => fun _ => false

def tests : List Data → List (Data → Bool)
  | [] => []
  | x :: xs => same x :: tests xs

end

def commaSeparated (ss : List String) : String := ", ".intercalate ss

def zipText (mark : String) (xs ys : List String) : List String :=
  List.zipWith (fun x y => x ++ mark ++ y) xs ys

mutual

def shown : Data → String
  | .none => "None"
  | .bool b => if b then "True" else "False"
  | .int i => toString i
  | .real x => x.text
  | .str s => Text.quote s
  | .bytes b => Text.quoteBytes b
  | .list xs => "[" ++ commaSeparated (shownItems xs) ++ "]"
  | .tuple xs =>
    "(" ++ commaSeparated (shownItems xs) ++ (if xs.length = 1 then "," else "") ++ ")"
  | .dict ks vs =>
    "\x7b" ++ commaSeparated (zipText ": " (shownItems ks) (shownItems vs)) ++ "\x7d"
  | .record t ns vs => t ++ "(" ++ commaSeparated (zipText "=" ns (shownItems vs)) ++ ")"
  | .atom _ _ s _ => s
  | .cycle => "..."

def shownItems : List Data → List String
  | [] => []
  | x :: xs => shown x :: shownItems xs

end

/-- The text of data within other text: texts stand as they are. -/
def spoken : Data → String
  | .str s => s
  | .atom _ _ _ s => s
  | d => d.shown

def typeName : Data → String
  | .none => "NoneType"
  | .bool _ => "bool"
  | .int _ => "int"
  | .real _ => "float"
  | .str _ => "str"
  | .bytes _ => "bytes"
  | .list _ => "list"
  | .tuple _ => "tuple"
  | .dict .. => "dict"
  | .record t _ _ => t
  | .atom _ t _ _ => t
  | .cycle => ""

/-- Whether data are of a type; truth values are integers too. -/
def isA : DataType → Data → Bool
  | .int, .int _ | .int, .bool _ => true
  | .str, .str _ => true
  | .bool, .bool _ => true
  | .float, .real _ => true
  | .list, .list _ => true
  | .dict, .dict .. => true
  | _, _ => false

def isAmong (d : Data) (ds : List Data) : Bool := ds.any fun e => e.same d

def isNone : Data → Bool
  | .none => true
  | _ => false

def length? : Data → Option Nat
  | .str s => s.length
  | .bytes b => b.length
  | .list xs => xs.length
  | .tuple xs => xs.length
  | .dict ks _ => ks.length
  | _ => Option.none

def truthy : Data → Bool
  | .none => false
  | .bool b => b
  | .int i => i ≠ 0
  | .real x => !x.isZero
  | .str s => !s.isEmpty
  | .bytes b => !b.isEmpty
  | .list xs => !xs.isEmpty
  | .tuple xs => !xs.isEmpty
  | .dict ks _ => !ks.isEmpty
  | _ => true

end Data
end AsyncImport
