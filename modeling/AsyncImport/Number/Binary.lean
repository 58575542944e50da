import AsyncImport.Number.Shortest

/-!
# 64-bit binary floats

Floats are kept as their bit patterns, so that they have decidable equality. `Binary.text` writes
one with the fewest digits that read back: positionally from 0.0001 up to sixteen digits before the
point, with an exponent of at least two digits elsewhere.
-/

namespace AsyncImport

/-- A 64-bit float, by its bits. -/
structure Binary where
  bits : UInt64
  deriving DecidableEq, Repr, Inhabited

namespace Binary

def ofFloat (x : Float) : Binary := ⟨x.toBits⟩

def negative (x : Binary) : Bool := x.bits.toNat / Nat.pow 2 63 = 1

def biasedExponent (x : Binary) : Nat := x.bits.toNat / Nat.pow 2 52 % Nat.pow 2 11

def fraction (x : Binary) : Nat := x.bits.toNat % Nat.pow 2 52

def isFinite (x : Binary) : Bool := x.biasedExponent ≠ 2047

def isNaN (x : Binary) : Bool := !x.isFinite && x.fraction ≠ 0

def mantissa (x : Binary) : Nat :=
  if x.biasedExponent = 0 then x.fraction else x.fraction + Nat.pow 2 52

def exponent (x : Binary) : Int :=
  if x.biasedExponent = 0 then -1074 else (x.biasedExponent : Int) - 1075

def numerator (x : Binary) : Nat := x.mantissa * Nat.pow 2 x.exponent.toNat

def denominator (x : Binary) : Nat := Nat.pow 2 (-x.exponent).toNat

def signed (x : Binary) (n : Nat) : Int := if x.negative then -(n : Int) else n

def truncate (x : Binary) : Int := x.signed (x.numerator / x.denominator)

def toInt? (x : Binary) : Option Int :=
  if x.isFinite && x.numerator % x.denominator = 0 then some x.truncate else none

def isZero (x : Binary) : Bool := x.isFinite && x.mantissa = 0

private def zeros (n : Nat) : String := String.ofList (List.replicate n '0')

private def positional (digits : String) (point : Int) : String :=
  let n : Int := digits.length
  if point ≤ 0 then "0." ++ zeros (-point).toNat ++ digits
  else if n ≤ point then digits ++ zeros (point - n).toNat ++ ".0"
  else (digits.take point.toNat).toString ++ "." ++ (digits.drop point.toNat).toString

private def scientific (digits : String) (point : Int) : String :=
  let e := point - 1
  let size := toString e.natAbs
  let size := if size.length < 2 then "0" ++ size else size
  let tail := (digits.drop 1).toString
  (digits.take 1).toString ++ (if tail.isEmpty then "" else "." ++ tail) ++
    (if e < 0 then "e-" else "e+") ++ size

private def trim (n : Nat) (k : Int) : Nat → Nat × Int
  | 0 => (n, k)
  | fuel + 1 => if n ≠ 0 && n % 10 = 0 then trim (n / 10) (k + 1) fuel else (n, k)

def text (x : Binary) : String :=
  if !x.isFinite then
    if x.isNaN then "nan" else if x.negative then "-inf" else "inf"
  else
    let sign := if x.negative then "-" else ""
    if x.mantissa = 0 then sign ++ "0.0"
    else
      let edge := x.fraction = 0 && 1 < x.biasedExponent
      let decimal := (Number.Interval.of x.mantissa x.exponent edge).shortest
      let (n, k) := trim decimal.digits decimal.exponent 20
      let digits := toString n
      let point := k + digits.length
      sign ++ if -4 < point && point ≤ 16 then positional digits point else scientific digits point

end Binary
end AsyncImport
