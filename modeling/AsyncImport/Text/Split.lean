/-!
# Splitting text

The parts of a text between the occurrences of a delimiter, found from left to right without
overlap.
-/

namespace AsyncImport.Text

def consFirst (c : Char) : List (List Char) → List (List Char)
  | [] => [[c]]
  | p :: ps => (c :: p) :: ps

/-- The parts of a text at a delimiter; `skip` characters of one are still to be passed over. -/
def parts (d : List Char) : Nat → List Char → List (List Char)
  | _, [] => [[]]
  | skip + 1, _ :: s => parts d skip s
  | 0, c :: s =>
    if d.isPrefixOf (c :: s) then [] :: parts d (d.length - 1) s
    else consFirst c (parts d 0 s)

def split (d s : String) : List String := (parts d.toList 0 s.toList).map String.ofList

def replace (old new s : List Char) : List Char := new.intercalate (parts old 0 s)

def isBlank (c : Char) : Bool :=
  let n := c.toNat
  (0x09 ≤ n && n ≤ 0x0d) || (0x1c ≤ n && n ≤ 0x20) || n = 0x85 || n = 0xa0 || n = 0x1680 ||
    (0x2000 ≤ n && n ≤ 0x200a) || n = 0x2028 || n = 0x2029 || n = 0x202f || n = 0x205f || n = 0x3000

def words (s : String) : List String :=
  (((s.toList.splitBy fun a b => isBlank a = isBlank b).filter fun w => !w.any isBlank).filter
    fun w => !w.isEmpty).map String.ofList

end AsyncImport.Text
