import AsyncImport.Text.Wildcard

/-!
# Path globs

The patterns by which plugins and ignore rules select modules. From left to right, `**/` stands for
any number of leading folders, `**` for any text on one line, `*` for any text within a folder, `?`
for one character within a folder, and any other character for itself.
-/

namespace AsyncImport.Glob

open Wildcard

def tokens : List Char → List Token
  | '*' :: '*' :: '/' :: p => .folders :: tokens p
  | '*' :: '*' :: p => .run '\n' :: tokens p
  | '*' :: p => .run '/' :: tokens p
  | '?' :: p => .one '/' :: tokens p
  | c :: p => .char c :: tokens p
  | [] => []

def admits (pattern value : String) : Bool :=
  accepts (tokens pattern.toList) value.toList

end AsyncImport.Glob
