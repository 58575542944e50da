import AsyncImport.Files
import AsyncImport.Toml.Reader
import AsyncImport.Toml.Writer
import AsyncImport.Value.Load

/-!
# TOML files
-/

namespace AsyncImport

open Edit

def Toml.WriteFault.fault : Toml.WriteFault → Fault
  | .key | .document => .typeMismatch
  | .value => .plain .conversion
  | .empty => .plain .value

def AccessFault.reading (path : FilePath) : AccessFault → Fault
  | .missing => .file (.notFound path.text)
  | f => .file (.read path.text f.message)

def AccessFault.writing (path : FilePath) (f : AccessFault) : Fault :=
  .file (.write path.text f.message)

def pathOf (v : Value) : Edit FilePath := do
  match v with
  | .str s => return .ofText s
  | _ => throw .typeMismatch

def getFiles : Edit Files := return (← get).files

def setFiles (fs : Files) : Edit Unit := modify fun w => { w with files := fs }

def readTomlData (path : FilePath) : Edit Data := do
  match (← getFiles).read path with
  | .error f => throw (f.reading path)
  | .ok bytes =>
    match decodeText bytes with
    | none => throw (.plain .decoding)
    | some text =>
      match Toml.read? text with
      | none => throw (.file (.parse path.text))
      | some d => return d

def readToml (path : Value) : Edit Value := do ofData (← readTomlData (← pathOf path))

/-- The text that a value is written as: a text as it stands, a mapping as a document. -/
def tomlText (content : Value) : Edit String := do
  match content with
  | .str s => return s
  | _ => match Toml.document ((← heap).data content) with
    | .ok s => return s
    | .error f => throw f.fault

def openToWrite (path : FilePath) : Edit Unit := do
  match (← getFiles).prepare path with
  | .error f => throw (f.writing path)
  | .ok fs =>
    setFiles fs
    match fs.write path [] with
    | .error f => throw (f.writing path)
    | .ok fs => setFiles fs

/-- Writes a text or a mapping to a TOML file. The file is opened first. -/
def writeToml (path content : Value) : Edit Unit := do
  let path ← pathOf path
  openToWrite path
  let text ← tomlText content
  match (← getFiles).write path (encodeText text) with
  | .error f => throw (f.writing path)
  | .ok fs => setFiles fs

def fileText (path : Value) : Edit Value := do
  match (← getFiles).read (← pathOf path) with
  | .ok bytes => match decodeText bytes with
    | some s => return .str (String.ofList (normalizeLines s.toList))
    | none => throw (.plain .decoding)
  | .error .missing => throw (.plain .fileNotFound)
  | .error (.directory _) => throw (.plain .isDirectory)
  | .error _ => throw (.plain .notDirectory)

end AsyncImport
