import AsyncImport.Number.Decimal
import AsyncImport.Toml.Scan

/-!
# Texts and keys of TOML

A text is basic, between double quotes and with escapes, or literal, between single quotes. Between
three quotes it may take several lines. A key is a dotted sequence of bare words and one-line texts.
-/

namespace AsyncImport.Toml

open Scan

def isBlank (c : Char) : Bool := c = ' ' || c = '\t'

def isBlankOrNewline (c : Char) : Bool := isBlank c || c = '\n'

def isForbidden (multiline : Bool) (c : Char) : Bool :=
  (c.toNat < 0x20 || c = '\x7f') && c ≠ '\t' && !(multiline && c = '\n')

def isHexDigit (c : Char) : Bool :=
  c.isDigit || ('a' ≤ c && c ≤ 'f') || ('A' ≤ c && c ≤ 'F')

def isScalar (n : Nat) : Bool := n < 0xd800 || (0xdfff < n && n < 0x110000)

def codedChar (digits : Nat) : Scan (List Char) := do
  let n := Number.ofDigits 16 ((← exactly isHexDigit digits).map Number.digitValue)
  unless isScalar n do failure
  return [Char.ofNat n]

/-- Skips the end of a line that was broken by a backslash, and the blank lines after it. -/
def brokenLine (first : Char) : Scan (List Char) := do
  if first ≠ '\n' then
    skipWhile isBlank
    expect "\n"
  skipWhile isBlankOrNewline
  return []

def escaped (multiline : Bool) : Scan (List Char) := do
  match ← next with
  | 'b' => return ['\x08']
  | 't' => return ['\t']
  | 'n' => return ['\n']
  | 'f' => return ['\x0c']
  | 'r' => return ['\r']
  | '"' => return ['"']
  | '\\' => return ['\\']
  | 'u' => codedChar 4
  | 'U' => codedChar 8
  | c => if multiline && isBlankOrNewline c then brokenLine c else failure

def basicRest (multiline : Bool) : Nat → Scan (List Char)
  | 0 => failure
  | fuel + 1 => do
    match ← next with
    | '"' =>
      if !multiline then return []
      else if ← accept "\"\"" then return []
      else return '"' :: (← basicRest multiline fuel)
    | '\\' =>
      let cs ← escaped multiline
      return cs ++ (← basicRest multiline fuel)
    | c =>
      if isForbidden multiline c then failure
      else return c :: (← basicRest multiline fuel)

def literalRest : Scan (List Char) := do
  let cs ← takeWhile (· ≠ '\'')
  if cs.any (isForbidden false) then failure
  expect "'"
  return cs

def untilQuotes : List Char → Option (List Char × List Char)
  | '\'' :: '\'' :: '\'' :: rest => some ([], rest)
  | c :: rest =>
    if isForbidden true c then none
    else (untilQuotes rest).map fun r => (c :: r.1, r.2)
  | [] => none

def extraQuotes (quote : Char) : Scan (List Char) := do
  if ← accept quote.toString then
    if ← accept quote.toString then return [quote, quote] else return [quote]
  else return []

def multilineRest (quote : Char) : Scan (List Char) := do
  let _ ← accept "\n"
  let cs ← if quote = '"' then do basicRest true (← bound) else StateT.mk untilQuotes
  return cs ++ (← extraQuotes quote)

def lineText (quote : Char) : Scan String := do
  expect quote.toString
  if quote = '"' then return String.ofList (← basicRest false (← bound))
  else return String.ofList (← literalRest)

def text (quote : Char) : Scan String := do
  if ← accept (String.ofList [quote, quote, quote]) then
    return String.ofList (← multilineRest quote)
  else lineText quote

def isBare (c : Char) : Bool := c.isAlphanum || c = '-' || c = '_'

def keyPart : Scan String := do
  match ← peek? with
  | some '"' => lineText '"'
  | some '\'' => lineText '\''
  | _ =>
    let cs ← takeWhile isBare
    if cs.isEmpty then failure
    return String.ofList cs

def keyRest : Nat → Scan (List String)
  | 0 => failure
  | fuel + 1 => do
    skipWhile isBlank
    if ← accept "." then
      skipWhile isBlank
      let part ← keyPart
      return part :: (← keyRest fuel)
    else return []

def dottedKey : Scan (List String) := do
  let first ← keyPart
  return first :: (← keyRest (← bound))

end AsyncImport.Toml
