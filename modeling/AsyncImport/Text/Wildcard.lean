/-!
# Wildcard patterns

A pattern is a list of tokens; each token stands for a set of texts, its pieces. A text matches a
pattern when it, or it without one final newline, is a concatenation of one piece per token.
`Token.Piece` says which texts a token stands for, `Token.rests` computes what may remain of a text
after a piece, and `accepts` decides the match.
-/

namespace AsyncImport.Wildcard

inductive Token where
  /-- One character, standing for itself. -/
  | char (c : Char)
  /-- One character other than `sep`. -/
  | one (sep : Char)
  /-- Any text without `sep`. -/
  | run (sep : Char)
  /-- Nothing, or any text without a newline followed by a slash. -/
  | folders
  deriving DecidableEq, Repr

def Token.Piece : Token → List Char → Prop
  | .char c, piece => piece = [c]
  | .one sep, piece => ∃ c, piece = [c] ∧ c ≠ sep
  | .run sep, piece => sep ∉ piece
  | .folders, piece => piece = [] ∨ ∃ front, piece = front ++ ['/'] ∧ '\n' ∉ front

def restsOfRun (sep : Char) : List Char → List (List Char)
  | [] => [[]]
  | c :: s => (c :: s) :: if c = sep then [] else restsOfRun sep s

def restsOfFolders : List Char → List (List Char)
  | [] => []
  | c :: s =>
    if c = '\n' then []
    else if c = '/' then s :: restsOfFolders s
    else restsOfFolders s

def Token.rests : Token → List Char → List (List Char)
  | .char c, s => match s with
    | [] => []
    | d :: s => if d = c then [s] else []
  | .one sep, s => match s with
    | [] => []
    | d :: s => if d = sep then [] else [s]
  | .run sep, s => restsOfRun sep s
  | .folders, s => s :: restsOfFolders s

/-- Decides the match of a whole text; one final newline may be left over. -/
def accepts : List Token → List Char → Bool
  | [], s => s = [] || s = ['\n']
  | t :: ts, s => (t.rests s).any (accepts ts)

/-- The texts that are a concatenation of one piece per token. -/
inductive Spells : List Token → List Char → Prop where
  | nil : Spells [] []
  | cons {t : Token} {ts : List Token} {piece rest : List Char} :
      t.Piece piece → Spells ts rest → Spells (t :: ts) (piece ++ rest)

end AsyncImport.Wildcard
