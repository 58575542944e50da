/-!
# Scanning text

A scan reads a part of a text and leaves the rest, or fails.
-/

namespace AsyncImport.Toml

abbrev Scan (α : Type) := StateT (List Char) Option α

namespace Scan

variable {α : Type}

/-- The next character; it stays where it is. -/
def peek? : Scan (Option Char) := return (← get).head?

def next : Scan Char := do
  match ← get with
  | c :: rest =>
    set rest
    return c
  | [] => failure

def takeWhile (p : Char → Bool) : Scan (List Char) := do
  let s ← get
  set (s.dropWhile p)
  return s.takeWhile p

def skipWhile (p : Char → Bool) : Scan Unit := modify (·.dropWhile p)

def accept (t : String) : Scan Bool := do
  let s ← get
  if t.toList.isPrefixOf s then
    set (s.drop t.toList.length)
    return true
  else return false

def expect (t : String) : Scan Unit := do
  unless ← accept t do failure

def exactly (p : Char → Bool) : Nat → Scan (List Char)
  | 0 => return []
  | n + 1 => do
    let c ← next
    unless p c do failure
    return c :: (← exactly p n)

def bound : Scan Nat := return (← get).length + 1

end Scan
end AsyncImport.Toml
