import AsyncImport.Text.Wildcard

/-!
# Regular expressions

As far as patterns of texts are written as such: characters, escaped where they would mean something
else, and any text without a dot, which is `[^.]*`. An expression stands between `^` and `$`, of which
the latter also matches before one final newline.
-/

namespace AsyncImport.Regex

open Wildcard

def escaped : List Char := "()[]\x7b\x7d?*+-|^$\\.&~# \t\n\r\x0b\x0c".toList

def escape (text : List Char) : List Char :=
  text.flatMap fun c => if c ∈ escaped then ['\\', c] else [c]

def marks : List Char := ".^$*+?\x7b[\\|()".toList

/-- The tokens of an expression after its beginning. An escaped letter or digit is no character that
stands for itself. -/
def items? : List Char → Option (List Token)
  | ['$'] => some []
  | '[' :: '^' :: '.' :: ']' :: '*' :: e => (items? e).map (.run '.' :: ·)
  | '\\' :: c :: e => if c.isAlphanum then none else (items? e).map (.char c :: ·)
  | c :: e => if c ∈ marks then none else (items? e).map (.char c :: ·)
  | [] => none

def tokens? : List Char → Option (List Token)
  | '^' :: e => items? e
  | _ => none

end AsyncImport.Regex
