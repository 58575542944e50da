import AsyncImport.Heap.View

/-!
# The world

Everything that a session changes: its objects, the jobs of its scheduler, its variables and files,
and the journal of what was called and reported. An `Edit` changes the world at once and may fail;
nothing else runs meanwhile.
-/

namespace AsyncImport

/-- What the library writes to its log. -/
inductive LogLevel where
  | debug | warning | error
  deriving DecidableEq, Repr

/-- What is written down for the host. -/
inductive Note where
  /-- A function of the host was called. -/
  | call (name : String) (args : List View)
  /-- A diagnostic event reached its observer. -/
  | event (id : String) (name : View) (detail : Option View)
  | log (level : LogLevel) (event : String) (fields : List (String × View))

/-- What a path leads to. -/
inductive File where
  | directory
  | bytes (content : List UInt8)
  deriving DecidableEq, Repr

/-- What is known of a function of the host before it is called. -/
structure Signature where
  asynchronous : Bool := false
  parameters : Option (List String) := none
  deriving DecidableEq, Repr, Inhabited

/-- An event as it was handed to a bus. -/
structure Emission where
  bus : Ref .bus
  id : Value
  event : Value
  deriving DecidableEq, Repr

structure World where
  heap : Heap := {}
  /-- What the scheduler has to do, first come first served. -/
  ready : List Job := []
  /-- The task that runs. -/
  current : Option (Ref .future) := none
  notes : Array Note := #[]
  /-- Every event that was emitted, in order, whether or not anybody heard of it. -/
  emitted : List Emission := []
  bindings : Assoc String Value := {}
  files : Assoc String File := {}
  functions : Assoc String Signature := {}

instance : Inhabited World := ⟨{}⟩

/-- A change of the world that may fail; what was done before a failure stays done. -/
abbrev Edit := ExceptT Fault (StateM World)

end AsyncImport
