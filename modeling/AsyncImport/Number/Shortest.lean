/-!
# Shortest decimals of binary fractions

A finite 64-bit float is `m * 2 ^ q`, and the reals that round to it form an interval around it. Its
shortest decimal is the point of the coarsest decimal grid that meets the interval; where two points
of that grid do, the nearer one.
-/

namespace AsyncImport.Number

/-- A positive dyadic value with the interval of the reals that round to it, over one denominator.
-/
structure Interval where
  value : Nat
  low : Nat
  high : Nat
  denominator : Nat
  closed : Bool

/-- The interval of `m * 2 ^ q`. Below a power of two the spacing is halved (`edge`). -/
def Interval.of (m : Nat) (q : Int) (edge : Bool) : Interval :=
  let up := (q - 2).toNat
  let down := (2 - q).toNat
  let scale := Nat.pow 2 up
  { value := 4 * m * scale
    low := (4 * m - if edge then 1 else 2) * scale
    high := (4 * m + 2) * scale
    denominator := Nat.pow 2 down
    closed := m % 2 = 0 }

/-- A decimal `digits * 10 ^ exponent`. -/
structure Decimal where
  digits : Nat
  exponent : Int
  deriving DecidableEq, Repr

def Interval.contains (i : Interval) (n : Nat) (k : Int) : Bool :=
  let x := n * Nat.pow 10 k.toNat * i.denominator
  let unit := Nat.pow 10 (-k).toNat
  if i.closed then i.low * unit ≤ x && x ≤ i.high * unit
  else i.low * unit < x && x < i.high * unit

/-- The number of digits before the decimal point; zero or negative for values below one tenth. -/
def Interval.magnitude (i : Interval) : Int :=
  if i.denominator ≤ i.value then (Nat.toDigits 10 (i.value / i.denominator)).length
  else
    let steps := (List.range 400).find? fun j => i.denominator ≤ i.value * Nat.pow 10 j
    1 - (steps.getD 0 : Int)

/-- The point of the grid `10 ^ k` nearest to the value, if one lies in the interval. -/
def Interval.onGrid? (i : Interval) (k : Int) : Option Nat :=
  let x := i.value * Nat.pow 10 (-k).toNat
  let unit := i.denominator * Nat.pow 10 k.toNat
  let below := x / unit
  let above := below + 1
  match i.contains below k, i.contains above k with
  | true, true =>
    let rest := 2 * (x % unit)
    some (if rest < unit || (rest = unit && below % 2 = 0) then below else above)
  | true, false => some below
  | false, true => some above
  | false, false => none

/-- The first of the grids with one, two, … seventeen digits that meets the interval. -/
def Interval.shortest (i : Interval) : Decimal :=
  let magnitude := i.magnitude
  let grids : List Int := (List.range 17).map fun (n : Nat) => magnitude - (n + 1)
  let found := grids.findSome? fun k => (i.onGrid? k).map fun n => (⟨n, k⟩ : Decimal)
  found.getD ⟨0, 0⟩

end AsyncImport.Number
