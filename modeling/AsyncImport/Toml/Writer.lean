import AsyncImport.Toml.Text
import AsyncImport.Value.Data

/-!
# Writing TOML

A mapping is written as a table: first its plain values, each on a line, then its tables under
headers. A table that holds nothing but tables has no header of its own. A list of mappings is an
array of tables, and within lists and inline tables everything stays on its line.
-/

namespace AsyncImport.Toml

/-- Why data cannot be written. -/
inductive WriteFault where
  /-- A key is not a text. -/
  | key
  /-- A value has no form in TOML. -/
  | value
  /-- A field of a documented table has no value. -/
  | empty
  /-- What should be a document is not a mapping. -/
  | document
  deriving DecidableEq, Repr

def escapeChar (c : Char) : List Char :=
  if c = '"' then ['\\', '"']
  else if c = '\\' then ['\\', '\\']
  else if c = '\n' then ['\\', 'n']
  else if c = '\r' then ['\\', 'r']
  else if c = '\t' then ['\\', 't']
  else if c = '\x08' then ['\\', 'b']
  else if c = '\x0c' then ['\\', 'f']
  else if c.toNat < 0x20 || c = '\x7f' then '\\' :: 'u' :: Text.hex 4 c.toNat
  else [c]

def quote (s : String) : String :=
  String.ofList ('"' :: (s.toList.flatMap escapeChar ++ ['"']))

def keyText (k : String) : String := if !k.isEmpty && k.all isBare then k else quote k

def key : Data → Except WriteFault String
  | .str k => .ok (keyText k)
  | _ => .error .key

def isTable : Data → Bool
  | .dict .. => true
  | _ => false

def inlinePairs (values : List Data) (texts : List String) : List String :=
  let pairs := values.zip texts
  (pairs.filter fun p => !isTable p.1).map Prod.snd ++
    (pairs.filter fun p => isTable p.1).map Prod.snd

def pairText (k v : String) : String := k ++ " = " ++ v

mutual

/-- The text of data on one line; `sep` stands between the pairs of a mapping. -/
def inline (sep : String) : Data → Except WriteFault String
  | .bool b => .ok (if b then "true" else "false")
  | .int i => .ok (toString i)
  | .real x => .ok x.text
  | .str s => .ok (quote s)
  | .atom v _ _ spoken => match v with
    | .moment .. => .ok ((spoken.replace " " "T").replace "+00:00" "Z")
    | _ => .error .value
  | .list xs => do return "[" ++ ", ".intercalate (← inlineItems xs) ++ "]"
  | .tuple xs => do return "[" ++ ", ".intercalate (← inlineItems xs) ++ "]"
  | .dict ks vs => do
    let texts ← inlineValues ks vs
    return "\x7b" ++ sep.intercalate (inlinePairs vs texts) ++ "\x7d"
  | _ => .error .value

def inlineItems : List Data → Except WriteFault (List String)
  | [] => .ok []
  | x :: xs => do return (← inline ", " x) :: (← inlineItems xs)

def inlineValues (ks : List Data) : List Data → Except WriteFault (List String)
  | [] => .ok []
  | v :: vs => do
    let text ← inline "," v
    let k ← key (ks.head?.getD .none)
    return pairText k text :: (← inlineValues ks.tail vs)

end

/-- A part of a table. `gap` says whether an empty line comes first. -/
inductive Node where
  | note (text : String)
  | line (text : String)
  | table (key : String) (gap : Bool) (body : List Node)
  | tables (key : String) (gap : Bool) (bodies : List (List Node))

namespace Node

def isLine : Node → Bool
  | .line _ | .note _ => true
  | _ => false

def isNote : Node → Bool
  | .note _ => true
  | _ => false

def isPlainTable : Node → Bool
  | .table .. => true
  | _ => false

/-- Adds a part: a line goes in front of the first table, anything else to the end. -/
def place (body : List Node) (n : Node) : List Node :=
  match n with
  | .note _ => body ++ [n]
  | .line _ => body.takeWhile isLine ++ n :: body.dropWhile isLine
  | .table k _ b => body ++ [.table k (!body.isEmpty) b]
  | .tables k _ bs => body ++ [.tables k (!body.isEmpty) bs]

def arrange (ns : List Node) : List Node :=
  ((ns.filter fun n => !n.isPlainTable) ++ ns.filter isPlainTable).foldl place []

def gapText (gap : Bool) : String := if gap then "\n" else ""

def fullKey (path : Option String) (k : String) : String :=
  match path with
  | some p => p ++ "." ++ k
  | none => k

mutual

def render (path : Option String) : Node → String
  | .note t => t
  | .line t => t
  | .table k gap body =>
    let k := fullKey path k
    let header := body.isEmpty || body.any isLine
    gapText gap ++ (if header then "[" ++ k ++ "]\n" else "") ++ renderAll (some k) body
  | .tables k gap bodies => renderTables (fullKey path k) gap bodies

def renderAll (path : Option String) : List Node → String
  | [] => ""
  | n :: ns => render path n ++ renderAll path ns

/-- The text of an array of tables; an empty line follows each that is not empty. -/
def renderTables (k : String) (gap : Bool) : List (List Node) → String
  | [] => ""
  | body :: bodies =>
    gapText gap ++ "[[" ++ k ++ "]]\n" ++ renderAll (some k) body ++
      renderTables k (body.any fun n => !n.isNote) bodies

end

end Node

mutual

def entry (k : Data) : Data → Except WriteFault Node
  | .dict ks vs => do
    let body ← entries ks vs
    return .table (← key k) false (Node.arrange body)
  | .list xs | .tuple xs => do
    if !xs.isEmpty && xs.all isTable then
      let bodies ← tableBodies xs
      return .tables (← key k) false bodies
    else
      let text ← inline "," (.list xs)
      return .line (pairText (← key k) text ++ "\n")
  | v => do
    let text ← inline "," v
    return .line (pairText (← key k) text ++ "\n")

def entries (ks : List Data) : List Data → Except WriteFault (List Node)
  | [] => .ok []
  | v :: vs => do return (← entry (ks.head?.getD .none) v) :: (← entries ks.tail vs)

def tableBodies : List Data → Except WriteFault (List (List Node))
  | [] => .ok []
  | .dict ks vs :: xs => do return Node.arrange (← entries ks vs) :: (← tableBodies xs)
  | _ :: _ => .error .value

end

def document : Data → Except WriteFault String
  | .dict ks vs => do return Node.renderAll none (Node.arrange (← entries ks vs))
  | _ => .error .document

/-- The line of a field in a documented table; a mapping stays on its line. -/
def fieldLine (name value : Data) : Except WriteFault Node := do
  match value with
  | .none => .error .empty
  | .dict ks vs =>
    let pairs ← inlineValues ks vs
    let text := "\x7b" ++ ", ".intercalate pairs ++ "\x7d"
    return .line (pairText (← key name) text ++ "\n")
  | v => entry name v

def comment (s : String) : Node := .note ("# " ++ s ++ "\n")

def documentedTable (heading : String) (section_ : Data) (body : List Node) :
    Except WriteFault String := do
  let table := Node.table (← key section_) false (body.foldl Node.place [])
  return "# " ++ heading ++ "\n\n" ++ table.render none

end AsyncImport.Toml
