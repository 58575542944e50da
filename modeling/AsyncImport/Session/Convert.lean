import AsyncImport.Draft.Options
import AsyncImport.Text.Split
import AsyncImport.Toml.Number

/-!
# Types as functions

A type that is called makes a value of its own from at most one other.
-/

namespace AsyncImport

open Edit

def trimmed (s : String) : List Char :=
  ((s.toList.dropWhile Text.isBlank).reverse.dropWhile Text.isBlank).reverse

def spelled? (x : Toml.Scan Data) (s : String) : Option Data :=
  match x.run (trimmed s) with
  | some (d, []) => some d
  | _ => none

def plainInteger : Toml.Scan Data := do
  let negative ← Toml.sign
  let n := Number.ofDigits 10 ((← Toml.digits Char.isDigit).map Number.digitValue)
  return .int (if negative then -n else n)

def toInteger (v : Value) : Quiet Value := do
  match v with
  | .int i => return .int i
  | .bool b => return .int (Data.ofBool b)
  | .real x => if x.isFinite then return .int x.truncate else throw (.plain .value)
  | .str s => match spelled? plainInteger s with
    | some (.int i) => return .int i
    | _ => throw (.plain .value)
  | _ => throw .typeMismatch

def realOfInt (i : Int) : Value := .real (Binary.ofDecimal (i < 0) i.natAbs 0)

def toReal (v : Value) : Quiet Value := do
  match v with
  | .int i => return realOfInt i
  | .bool b => return realOfInt (Data.ofBool b)
  | .real x => return .real x
  | .str s => match spelled? Toml.number s with
    | some (.int i) => return realOfInt i
    | some (.real x) => return .real x
    | _ => throw (.plain .value)
  | _ => throw .typeMismatch

def convert (t : DataType) (args : List Value) : Quiet Value := do
  match t, args with
  | .int, [] => return .int 0
  | .str, [] => return .str ""
  | .bool, [] => return .bool false
  | .float, [] => return realOfInt 0
  | .list, [] => newList []
  | .dict, [] => newDict {}
  | .int, [v] => toInteger v
  | .str, [v] => return .str (← spoken v)
  | .bool, [v] => return .bool (← truthy v)
  | .float, [v] => toReal v
  | .list, [v] => do newList (← items v)
  | .dict, [v] => do newDict (← dictOf v)
  | _, _ => throw .typeMismatch

end AsyncImport
