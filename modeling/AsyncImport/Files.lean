import AsyncImport.Edit

/-!
# Files

The files of a session lie in one directory and are reached by relative paths. A file that cannot be
opened is refused with a text that names the cause and the path.
-/

namespace AsyncImport

/-- The steps of a path, in which empty ones and single dots do not count. -/
structure FilePath where
  steps : List String
  deriving DecidableEq, Repr

namespace FilePath

def ofText (s : String) : FilePath := ⟨(s.splitOn "/").filter fun p => p ≠ "" && p ≠ "."⟩

def text (p : FilePath) : String := if p.steps.isEmpty then "." else "/".intercalate p.steps

def parent (p : FilePath) : FilePath := ⟨p.steps.dropLast⟩

def parents (p : FilePath) : List FilePath :=
  (List.range p.steps.length).map fun n => ⟨p.steps.take n⟩

end FilePath

/-- Why a path cannot be opened. -/
inductive AccessFault where
  | missing
  | directory (path : String)
  | notADirectory (path : String)
  | exists (path : String)
  deriving DecidableEq, Repr

def AccessFault.message : AccessFault → String
  | .missing => ""
  | .directory p => "[Errno 21] Is a directory: " ++ Text.quote p
  | .notADirectory p => "[Errno 20] Not a directory: " ++ Text.quote p
  | .exists p => "[Errno 17] File exists: " ++ Text.quote p

abbrev Files := Assoc String File

namespace Files

def get? (fs : Files) (p : FilePath) : Option File :=
  if p.steps.isEmpty then some .directory else Assoc.get? fs p.text

def isFile (fs : Files) (p : FilePath) : Bool :=
  match get? fs p with
  | some (.bytes _) => true
  | _ => false

def makeDirectories (fs : Files) (p : FilePath) : Files :=
  (p.parents ++ [p]).foldl (fun fs q =>
    if (get? fs q).isSome then fs else fs.insert q.text .directory) fs

def put (fs : Files) (p : FilePath) (f : File) : Files :=
  (makeDirectories fs p.parent).insert p.text f

def read (fs : Files) (p : FilePath) : Except AccessFault (List UInt8) :=
  if p.parents.any (isFile fs) then .error (.notADirectory p.text)
  else match get? fs p with
    | some (.bytes b) => .ok b
    | some .directory => .error (.directory p.text)
    | none => .error .missing

def prepare (fs : Files) (p : FilePath) : Except AccessFault Files :=
  if isFile fs p.parent then .error (.exists p.parent.text)
  else if p.parent.parents.any (isFile fs) then .error (.notADirectory p.parent.text)
  else .ok (makeDirectories fs p.parent)

def write (fs : Files) (p : FilePath) (b : List UInt8) : Except AccessFault Files :=
  match get? fs p with
  | some .directory => .error (.directory p.text)
  | _ => .ok (fs.insert p.text (.bytes b))

end Files

def decodeText (b : List UInt8) : Option String := String.fromUTF8? ⟨b.toArray⟩

def normalizeLines : List Char → List Char
  | '\r' :: '\n' :: cs => '\n' :: normalizeLines cs
  | '\r' :: cs => '\n' :: normalizeLines cs
  | c :: cs => c :: normalizeLines cs
  | [] => []

def encodeText (s : String) : List UInt8 := s.toUTF8.toList

end AsyncImport
