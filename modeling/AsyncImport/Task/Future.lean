import AsyncImport.Activity

/-!
# Futures

A future is a result that may still be to come. A task is the future of an activity; a group is the
future of several others and fails as soon as one of them does.
-/

namespace AsyncImport

/-- What has become of a future. -/
inductive Status where
  | waiting
  | done (v : Value)
  | failed (e : Ref .failure)
  | cancelled
  deriving DecidableEq, Repr, Inhabited

def Status.isDone (s : Status) : Bool := s ≠ .waiting

/-- What a future sets off when it is done. -/
inductive Reaction where
  /-- A task that waits for the future goes on. -/
  | wake (task : Ref .future)
  /-- A group that has the future as a member takes note. -/
  | tell (group : Ref .future)
  deriving DecidableEq, Repr

/-- Where a future's result comes from. -/
inductive Origin where
  /-- From outside. -/
  | plain
  /-- From an activity; the task may be waiting for another future, and its cancellation may be due.
  -/
  | task (activity : Activity) (waitsFor : Option (Ref .future)) (cancelling : Bool)
  /-- From other futures; `missing` of the distinct ones have not reported. -/
  | group (members : List (Ref .future)) (missing : Nat) (cancelling : Bool)
  deriving DecidableEq, Repr, Inhabited

structure Future where
  status : Status := .waiting
  origin : Origin := .plain
  reactions : List Reaction := []
  deriving DecidableEq, Repr, Inhabited

def Future.result? (c : Future) : Option Value :=
  match c.status with
  | .done v => some v
  | _ => none

def Future.waitsFor? (c : Future) : Option (Ref .future) :=
  match c.origin with
  | .task _ f _ => f
  | _ => none

/-- A task that waits no longer; no cancellation of it is due. -/
def Future.goOn (c : Future) : Future :=
  match c.origin with
  | .task a _ _ => { c with origin := .task a none false }
  | _ => c

/-- What the scheduler has to do next. -/
inductive Job where
  /-- A task takes its first step, or goes on after giving way. -/
  | step (task : Ref .future)
  /-- A future that is done sets off a reaction. -/
  | react (reaction : Reaction) (cause : Ref .future)
  deriving DecidableEq, Repr

/-- An activity that a host holds and may await once. -/
structure Coroutine where
  activity : Activity
  spent : Bool := false
  deriving DecidableEq, Repr, Inhabited

end AsyncImport
