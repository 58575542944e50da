import AsyncImport.Text.Regex
import AsyncImport.Text.Split

/-!
# Patterns of event ids

An event id is a dotted text such as `loader.error`. In a pattern `*` stands for any text within a
segment, and every other character for itself. A pattern is matched as a regular expression.
-/

namespace AsyncImport.Event.Pattern

open Wildcard

/-- The expression of a pattern. The pattern is escaped as a whole, and then what its stars have become is
replaced. -/
def regex (pattern : List Char) : List Char :=
  '^' :: (Text.replace ['\\', '*'] ['[', '^', '.', ']', '*'] (Regex.escape pattern) ++ ['$'])

def admits (pattern id : String) : Bool :=
  match Regex.tokens? (regex pattern.toList) with
  | some tokens => accepts tokens id.toList
  | none => false

end AsyncImport.Event.Pattern
