import AsyncImport.Toml.Text
import AsyncImport.Value.Data

/-!
# Numbers of TOML

Integers in four bases and floats; single underscores may stand between digits.
-/

namespace AsyncImport.Toml

open Scan

def moreDigits (p : Char → Bool) : List Char → List Char × List Char
  | '_' :: c :: rest =>
    if p c then ((c :: (moreDigits p rest).1), (moreDigits p rest).2) else ([], '_' :: c :: rest)
  | c :: rest =>
    if p c then ((c :: (moreDigits p rest).1), (moreDigits p rest).2) else ([], c :: rest)
  | [] => ([], [])

def digits (p : Char → Bool) : Scan (List Char) := do
  let first ← exactly p 1
  let (more, rest) := moreDigits p (← get)
  set rest
  return first ++ more

def basedInteger : Scan Data := do
  expect "0"
  let (base, p) ← match ← next with
    | 'x' => pure (16, isHexDigit)
    | 'o' => pure (8, fun c => '0' ≤ c && c ≤ '7')
    | 'b' => pure (2, fun c => c = '0' || c = '1')
    | _ => failure
  return .int (Number.ofDigits base ((← digits p).map Number.digitValue))

def sign : Scan Bool := do
  if ← accept "-" then return true
  let _ ← accept "+"
  return false

/-- The part of a number in front of the point; it starts with no needless zero. -/
def wholePart : Scan (List Char) := do
  if ← accept "0" then return ['0'] else digits Char.isDigit

def exponentPart : Scan Int := do
  let c ← next
  unless c = 'e' || c = 'E' do failure
  let negative ← sign
  let n := Number.ofDigits 10 ((← digits Char.isDigit).map Number.digitValue)
  return if negative then -n else n

/-- A decimal number: a float if it has a point or an exponent. -/
def decimalNumber : Scan Data := do
  let negative ← sign
  let whole ← wholePart
  let fraction ← optional (do expect "."; digits Char.isDigit)
  let exponent ← optional exponentPart
  let places := fraction.getD []
  let n := Number.ofDigits 10 ((whole ++ places).map Number.digitValue)
  if fraction.isNone && exponent.isNone then return .int (if negative then -n else n)
  else return .real (Binary.ofDecimal negative n (exponent.getD 0 - places.length))

def specialNumber : Scan Data := do
  let negative ← sign
  if ← accept "inf" then return .real (Binary.infinity.withSign negative)
  expect "nan"
  return .real (Binary.notANumber.withSign negative)

def number : Scan Data := do
  match ← optional basedInteger with
  | some d => return d
  | none =>
    match ← optional decimalNumber with
    | some d => return d
    | none => specialNumber

end AsyncImport.Toml
