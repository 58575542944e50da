import AsyncImport.Assoc
import AsyncImport.Fault
import AsyncImport.Text.Upper
import AsyncImport.Value.Data

/-!
# Logging

A log is set up with the name of a level and a format. Lines below the level are dropped; in the
JSON format a line is a record of its event, level and logger and of the fields that were given with
it.
-/

namespace AsyncImport.Log

def levels : List (String × Nat) :=
  [("NOTSET", 0), ("DEBUG", 10), ("INFO", 20), ("WARN", 30), ("WARNING", 30), ("ERROR", 40),
   ("CRITICAL", 50), ("FATAL", 50)]

inductive Layout where
  | console | json
  deriving DecidableEq, Repr

/-- How a log is set up. -/
structure Setup where
  level : Nat
  layout : Layout
  deriving DecidableEq, Repr

/-- The set-up of a level and a format, which must be known; the level is looked at first. -/
def setup (level format : Data) : Except Fault Setup := do
  match level with
  | .str name =>
    match levels.lookup (Text.upper name) with
    | none => throw (.logLevel name)
    | some n =>
      match format with
      | .str "console" => return ⟨n, .console⟩
      | .str "json" => return ⟨n, .json⟩
      | d => throw (.logFormat d.spoken)
  | .bytes _ => throw (.logLevel level.spoken)
  | _ => throw .missing

/-- The ways to write a line, each with its level. -/
inductive Severity where
  | debug | info | warning | error | critical
  deriving DecidableEq, Repr

def Severity.text : Severity → String
  | .debug => "debug"
  | .info => "info"
  | .warning => "warning"
  | .error => "error"
  | .critical => "critical"

def Severity.level : Severity → Nat
  | .debug => 10
  | .info => 20
  | .warning => 30
  | .error => 40
  | .critical => 50

mutual

/-- What a record shows of data: what JSON has no form for is shown as a text. -/
def rendered : Data → Data
  | .list xs => .list (renderedItems xs)
  | .tuple xs => .list (renderedItems xs)
  | .dict ks vs => .dict ks (renderedItems vs)
  | .bytes b => .str (Data.bytes b).shown
  | .record t ns vs => .str (Data.record t ns vs).shown
  | .atom _ _ s _ => .str s
  | d => d

def renderedItems : List Data → List Data
  | [] => []
  | x :: xs => rendered x :: renderedItems xs

end

/-- The field of a record; bytes that spell a text are shown as that text. -/
def fieldData : Data → Data
  | .bytes b => match String.fromUTF8? ⟨b.toArray⟩ with
    | some s => .str s
    | none => rendered (.bytes b)
  | d => rendered d

def consoleLine : Data := .str "console line"

/-- The line of an event, unless the level drops it. The time of writing is left out. -/
def line? (s : Setup) (severity : Severity) (event : String) (fields : List (String × Data)) :
    Option Data :=
  if severity.level < s.level then none
  else match s.layout with
    | .console => some consoleLine
    | .json =>
      let given : Assoc String Data := .ofList (fields.map fun f => (f.1, fieldData f.2))
      let record := ((given.insert "event" (.str event)).insert "logger" (.str "app")).insert
        "level" (.str severity.text)
      let record := record.erase "timestamp"
      some (.dict (record.keys.map .str) record.values)

end AsyncImport.Log
