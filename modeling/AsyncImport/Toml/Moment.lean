import AsyncImport.Toml.Text
import AsyncImport.Value.Basic

/-!
# Dates and times of TOML

A date, a time of day, or both, possibly with an offset from universal time. Seconds have up to six
decimal places, further ones are dropped.
-/

namespace AsyncImport.Toml

open Scan

structure Day where
  year : Nat
  month : Nat
  day : Nat

structure Clock where
  hour : Nat
  minute : Nat
  second : Nat
  micro : Nat

/-- An offset from universal time. -/
structure Offset where
  negative : Bool
  minutes : Nat

def fixed (digits : Nat) : Scan Nat := do
  return Number.ofDigits 10 ((← exactly Char.isDigit digits).map Number.digitValue)

def within (low high : Nat) : Scan Nat := do
  let n ← fixed 2
  unless low ≤ n && n ≤ high do failure
  return n

def day : Scan Day := do
  let year ← fixed 4
  expect "-"
  let month ← within 1 12
  expect "-"
  return ⟨year, month, ← within 1 31⟩

def micros : Scan Nat := do
  match ← optional (do expect "."; exactly Char.isDigit 1) with
  | none => return 0
  | some first =>
    let digits := (first ++ (← takeWhile Char.isDigit)).take 6
    let padded := digits ++ List.replicate (6 - digits.length) '0'
    return Number.ofDigits 10 (padded.map Number.digitValue)

def clock : Scan Clock := do
  let hour ← within 0 23
  expect ":"
  let minute ← within 0 59
  expect ":"
  let second ← within 0 59
  return ⟨hour, minute, second, ← micros⟩

def offset : Scan Offset := do
  match ← next with
  | 'Z' | 'z' => return ⟨false, 0⟩
  | c =>
    unless c = '+' || c = '-' do failure
    let hours ← within 0 23
    expect ":"
    return ⟨c = '-', hours * 60 + (← within 0 59)⟩

def isLeap (year : Nat) : Bool := year % 4 = 0 && (year % 100 ≠ 0 || year % 400 = 0)

def monthLength (year month : Nat) : Nat :=
  if month = 2 then if isLeap year then 29 else 28
  else if month = 4 || month = 6 || month = 9 || month = 11 then 30
  else 31

def Day.isValid (d : Day) : Bool := d.year ≠ 0 && d.day ≤ monthLength d.year d.month

def padded (width n : Nat) : String :=
  let s := toString n
  String.ofList (List.replicate (width - s.length) '0') ++ s

def Day.spoken (d : Day) : String :=
  padded 4 d.year ++ "-" ++ padded 2 d.month ++ "-" ++ padded 2 d.day

def Clock.spoken (c : Clock) : String :=
  padded 2 c.hour ++ ":" ++ padded 2 c.minute ++ ":" ++ padded 2 c.second ++
    if c.micro = 0 then "" else "." ++ padded 6 c.micro

def Offset.spoken (o : Offset) : String :=
  (if o.negative && o.minutes ≠ 0 then "-" else "+") ++ padded 2 (o.minutes / 60) ++ ":" ++
    padded 2 (o.minutes % 60)

/-- The parts of a time that are shown in full: seconds and their fraction only where they count. -/
def Clock.parts (c : Clock) : List Nat :=
  [c.hour, c.minute] ++
    if c.micro ≠ 0 then [c.second, c.micro] else if c.second ≠ 0 then [c.second] else []

def Offset.shown (o : Offset) : String :=
  if o.minutes = 0 then "datetime.timezone.utc"
  else
    let seconds := o.minutes * 60
    let delta :=
      if o.negative then "days=-1, seconds=" ++ toString (86400 - seconds)
      else "seconds=" ++ toString seconds
    "datetime.timezone(datetime.timedelta(" ++ delta ++ "))"

def numbersText (ns : List Nat) : String := ", ".intercalate (ns.map toString)

def dateValue (d : Day) : Value :=
  .moment "date" ("datetime.date(" ++ numbersText [d.year, d.month, d.day] ++ ")") d.spoken

def timeValue (c : Clock) : Value :=
  .moment "time" ("datetime.time(" ++ numbersText c.parts ++ ")") c.spoken

def dateTimeValue (d : Day) (c : Clock) (o : Option Offset) : Value :=
  let zone := match o with
    | some o => ", tzinfo=" ++ o.shown
    | none => ""
  let suffix := match o with
    | some o => o.spoken
    | none => ""
  .moment "datetime"
    ("datetime.datetime(" ++ numbersText ([d.year, d.month, d.day] ++ c.parts) ++ zone ++ ")")
    (d.spoken ++ " " ++ c.spoken ++ suffix)

def timeOfDay : Scan (Clock × Option Offset) := do
  let c ← next
  unless c = 'T' || c = 't' || c = ' ' do failure
  let c ← clock
  return (c, ← optional offset)

/-- A date, possibly with a time. The answer is nothing where no date stands; a date that is not in
the calendar is a failure. -/
def moment? : Scan (Option Value) := do
  match ← optional day with
  | some d =>
    let time ← optional timeOfDay
    unless d.isValid do failure
    match time with
    | some (c, o) => return some (dateTimeValue d c o)
    | none => return some (dateValue d)
  | none => return (← optional clock).map timeValue

end AsyncImport.Toml
