import AsyncImport.Toml.Moment
import AsyncImport.Toml.Number
import AsyncImport.Toml.Table

/-!
# Reading TOML

A document is read line by line: headers, pairs of a key and a value, and comments. `read?` gives
the data of a document, or nothing when the text is none.
-/

namespace AsyncImport.Toml

open Scan

def comment? : Scan Unit := do
  if (← peek?) = some '#' then
    let cs ← takeWhile (· ≠ '\n')
    if cs.any (isForbidden false) then failure

def skipFiller : Nat → Scan Unit
  | 0 => return ()
  | fuel + 1 => do
    skipWhile isBlankOrNewline
    if (← peek?) = some '#' then
      comment?
      skipFiller fuel

def filler : Scan Unit := do skipFiller (← bound)

def assignInline (t : Table) (marks : Marks) (p : Path) (v : Data) : Option (Table × Marks) := do
  if marks.isClosed p then none
  let last ← p.getLast?
  let t ← Table.changeAt false (Table.add last v) p.dropLast t
  return (t, if isClosedData v then marks ++ [(p, .closed)] else marks)

mutual

def value : Nat → Scan Data
  | 0 => failure
  | fuel + 1 => do
    match ← peek? with
    | some '"' => return .str (← text '"')
    | some '\'' => return .str (← text '\'')
    | some 't' =>
      expect "true"
      return .bool true
    | some 'f' =>
      expect "false"
      return .bool false
    | some '[' =>
      expect "["
      filler
      return .list (← items fuel)
    | some '\x7b' =>
      expect "\x7b"
      skipWhile isBlank
      if ← accept "\x7d" then return Table.toData {}
      else return (← pairs fuel {} []).toData
    | _ =>
      match ← moment? with
      | some m => match m with
        | .moment type shown spoken => return .atom m type shown spoken
        | _ => failure
      | none => number

def items : Nat → Scan (List Data)
  | 0 => failure
  | fuel + 1 => do
    if ← accept "]" then return []
    let v ← value fuel
    filler
    if ← accept "]" then return [v]
    expect ","
    filler
    return v :: (← items fuel)

def pairs : Nat → Table → Marks → Scan Table
  | 0, _, _ => failure
  | fuel + 1, t, marks => do
    let p ← dottedKey
    expect "="
    skipWhile isBlank
    let v ← value fuel
    let (t, marks) ← assignInline t marks p v
    skipWhile isBlank
    if ← accept "\x7d" then return t
    expect ","
    skipWhile isBlank
    pairs fuel t marks

end

def pair (d : Document) : Scan Document := do
  let p ← dottedKey
  expect "="
  skipWhile isBlank
  d.assign p (← value (← bound))

def header (d : Document) : Scan Document := do
  let d := d.endSection
  if ← accept "[[" then
    skipWhile isBlank
    let d ← d.openItem (← dottedKey)
    expect "]]"
    return d
  else
    expect "["
    skipWhile isBlank
    let d ← d.openTable (← dottedKey)
    expect "]"
    return d

def lines : Nat → Document → Scan Document
  | 0, _ => failure
  | fuel + 1, d => do
    skipWhile isBlank
    let d ← match ← peek? with
      | none | some '\n' | some '#' => pure d
      | some '[' => header d
      | some _ => pair d
    skipWhile isBlank
    comment?
    match ← get with
    | [] => return d
    | '\n' :: rest =>
      set rest
      lines fuel d
    | _ => failure

def unifyLineEnds : List Char → List Char
  | '\r' :: '\n' :: rest => '\n' :: unifyLineEnds rest
  | c :: rest => c :: unifyLineEnds rest
  | [] => []

def read? (document : String) : Option Data := do
  let s := unifyLineEnds document.toList
  let (d, _) ← (lines (s.length + 1) {}).run s
  return d.root.toData

end AsyncImport.Toml
