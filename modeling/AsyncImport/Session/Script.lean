import AsyncImport.Log
import AsyncImport.Session.Create

/-!
# Scripts

What a host does in a session, step by step, and what its functions do when they are called.
-/

namespace AsyncImport

inductive Expr where
  | null
  | bool (b : Bool)
  | int (i : Int)
  | real (x : Binary)
  | str (s : String)
  | bytes (b : List UInt8)
  | list (items : List Expr)
  | tuple (items : List Expr)
  | map (keys values : List Expr)
  /-- A value within a number of lists of one item. -/
  | nest (of : Expr) (depth : Nat)
  | function (name : String)
  | library (p : Procedure)
  | dataType (t : DataType)
  | hook (h : Hook)
  | format (f : Format)
  | phase (p : Phase)
  | make (m : Maker) (items : List Expr) (labels : List Label) (named : List Expr)
  | failure (kind : FaultKind) (message : String)
  /-- A future that is done. -/
  | resolved (value : Expr)
  | variable (name : String) (path : List Label)
  /-- An argument of the running function. -/
  | argument (i : Nat)
  | member (of : Expr) (label : Label)
  | item (of key : Expr)
  | join (parts : List Expr)
  | upper (of : Expr)
  | sum (terms : List Expr)
  | equal (a b : Expr)
  | startsWith (of start : Expr)
  | lookup (keys : List String) (values : List Expr) (key default : Expr)
  | repeated (of : Expr) (times : Nat)
  deriving Inhabited

/-- The arguments of a call. -/
structure ArgumentList where
  items : List Expr := []
  named : List (Label × Expr) := []

/-- One thing that a host or one of its functions does. -/
inductive Action where
  | make (m : Maker) (args : ArgumentList)
  | callMember (on : Expr) (label : Label) (args : ArgumentList)
  | callLibrary (p : Procedure) (args : ArgumentList)
  | get (on : Expr) (label : Label)
  | set (on : Expr) (label : Label) (value : Expr)
  | put (on key value : Expr)
  | invoke (f : Expr) (args : List Expr)
  | value (e : Expr)
  | shown (e : Expr)
  | length (e : Expr)
  | contains (item container : Expr)
  | equal (a b : Expr)
  | identical (a b : Expr)
  | fileText (path : Expr)
  /-- A log is set up, by settings if these are given, and lines are written to it. -/
  | log (setup : List Expr) (settings : Option Expr)
      (lines : List (Log.Severity × String × List (String × Expr)))
  deriving Inhabited

inductive Statement where
  | result (e : Expr)
  | raise (kind : FaultKind) (message : String)
  | branch (condition : Expr) (yes no : List Statement)
  /-- The function gives way a number of times. -/
  | sleep (times : Nat)
  /-- An action, whose result may be awaited and kept in a variable. -/
  | act (a : Action) (awaits : Bool) (keep : Option String)
  deriving Inhabited

/-- A function of the host. -/
structure Function where
  signature : Signature := {}
  body : List Statement

inductive Step where
  | act (a : Action) (awaits : Bool) (keep : Option String)
  /-- The scheduler makes a number of rounds. -/
  | tick (rounds : Nat)
  /-- Everything runs to rest; the result is that of a future. -/
  | wait (e : Expr) (keep : Option String)
  deriving Inhabited

/-- What a host brings to a session. -/
structure Script where
  functions : Assoc String Function := {}
  files : Assoc String File := {}
  steps : List Step := []

end AsyncImport
