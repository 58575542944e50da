import AsyncImport.Number.Binary

/-!
# Reading decimals as binary floats

A decimal is read as the nearest 64-bit float. Decimals whose magnitude is beyond every float, or
below half of the least one, are settled by their size alone.
-/

namespace AsyncImport

def Number.ofDigits (base : Nat) (digits : List Nat) : Nat :=
  digits.foldl (fun n d => n * base + d) 0

def Number.digitValue (c : Char) : Nat :=
  if c.isDigit then c.toNat - '0'.toNat
  else if c.isLower then c.toNat - 'a'.toNat + 10
  else c.toNat - 'A'.toNat + 10

namespace Binary

def signBit : UInt64 := 0x8000000000000000

def withSign (negative : Bool) (x : Binary) : Binary :=
  if negative then ⟨x.bits ||| signBit⟩ else x

def infinity : Binary := ⟨0x7ff0000000000000⟩

def notANumber : Binary := ⟨0x7ff8000000000000⟩

def ofDecimal (negative : Bool) (digits : Nat) (exponent : Int) : Binary :=
  let magnitude := exponent + (Nat.toDigits 10 digits).length
  withSign negative <|
    if digits = 0 || magnitude < -400 then ⟨0⟩
    else if 400 < magnitude then infinity
    else ofFloat (Float.ofScientific digits (exponent < 0) exponent.natAbs)

end Binary
end AsyncImport
