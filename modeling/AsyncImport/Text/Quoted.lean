import AsyncImport.Text.Printable

/-!
# Quoted text

How messages show a text: between single quotes, or between double quotes when the text holds a
single quote and no double one. A backslash and the quote in use are escaped; characters that do not
print are written by their code.
-/

namespace AsyncImport.Text

def hexDigit (n : Nat) : Char :=
  if n < 10 then Char.ofNat (48 + n) else Char.ofNat (87 + n)

def hex (digits n : Nat) : List Char :=
  (List.range digits).reverse.map fun i => hexDigit (n / Nat.pow 16 i % 16)

def escapeCode (n : Nat) : List Char :=
  if n < 0x100 then '\\' :: 'x' :: hex 2 n
  else if n < 0x10000 then '\\' :: 'u' :: hex 4 n
  else '\\' :: 'U' :: hex 8 n

def escapeChar (quote c : Char) : List Char :=
  if c = quote || c = '\\' then ['\\', c]
  else if c = '\n' then ['\\', 'n']
  else if c = '\r' then ['\\', 'r']
  else if c = '\t' then ['\\', 't']
  else if isPrintable c then [c]
  else escapeCode c.toNat

def quoteFor (s : List Char) : Char :=
  if s.contains '\'' && !s.contains '"' then '"' else '\''

def quote (s : String) : String :=
  let q := quoteFor s.toList
  String.ofList (q :: (s.toList.flatMap (escapeChar q) ++ [q]))

/-- Bytes are quoted like text, with a mark, and show as characters only within ASCII. -/
def quoteBytes (b : List UInt8) : String :=
  let s := b.map fun x => Char.ofNat x.toNat
  let q := quoteFor s
  let shown := s.flatMap fun c => if c.toNat < 0x7f then escapeChar q c else escapeCode c.toNat
  String.ofList ('b' :: q :: (shown ++ [q]))

end AsyncImport.Text
