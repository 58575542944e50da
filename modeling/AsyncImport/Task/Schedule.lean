import AsyncImport.Edit

/-!
# Making, grouping and cancelling futures

A future that becomes done queues its reactions, in the order in which they were attached.
-/

namespace AsyncImport

namespace Edit

/-- A task for an activity; it takes its first step after all jobs that are queued now. -/
def spawn (a : Activity) : Edit (Ref .future) := do
  let t ← create .future { origin := .task a none false }
  enqueue (.step t)
  return t

def resolved (v : Value) : Edit (Ref .future) := create .future { status := .done v }

def complete (f : Ref .future) (s : Status) : Edit Unit := do
  let c ← read f
  unless c.status.isDone do
    write f { c with status := s, reactions := [] }
    c.reactions.forM fun r => enqueue (.react r f)

/-- Attaches a reaction; that of a future which is done already is queued at once. -/
def attach (f : Ref .future) (r : Reaction) : Edit Unit := do
  if (← read f).status.isDone then enqueue (.react r f)
  else update f fun c => { c with reactions := c.reactions ++ [r] }

def suspended (a : Activity) : Quiet Value :=
  return .obj .coroutine (← make .coroutine { activity := a } Kind.isData_coroutine)

/-- The future of a value that can be awaited. A coroutine becomes a task. -/
def asFuture (v : Value) : Edit (Ref .future) := do
  match v with
  | .obj .future f => return f
  | .obj .coroutine c =>
    let co ← read c
    if co.spent then spawn (.awaitValue v)
    else
      write c { co with spent := true }
      spawn co.activity
  | _ => throw .typeMismatch

def setGroup (g : Ref .future) (members : List (Ref .future)) (missing : Nat) (cancelling : Bool) :
    Edit Unit :=
  update g fun c => { c with origin := .group members missing cancelling }

def results? (fs : List (Ref .future)) : Quiet (Option (List Value)) := do
  let h ← heap
  return fs.mapM fun (f : Ref .future) => (h.get f).result?

/-- A group goes by what has become of a member; `left` of the others have not reported. When none are
left, all of them are done. -/
def follow (g member : Ref .future) (members : List (Ref .future)) (left : Nat) (cancelling : Bool) :
    Edit Unit := do
  match (← read member).status with
  | .failed e => complete g (.failed e)
  | .cancelled => complete g (.failed (← failure .cancelled))
  | .done _ =>
    if left = 0 then
      if cancelling then complete g (.failed (← failure .cancelled))
      else
        match ← results? members with
        | some vs => complete g (.done (← newList vs))
        | none => complete g (.failed (← failure (.plain .runtime)))
  | .waiting => pure ()

def report (g member : Ref .future) : Edit Unit := do
  let c ← read g
  match c.origin with
  | .group members missing cancelling =>
    setGroup g members (missing - 1) cancelling
    unless c.status.isDone do follow g member members (missing - 1) cancelling
  | _ => pure ()

/-- A value joins those that a group waits for; the same value twice is one member. -/
def join (g : Ref .future) (seen : List (Value × Ref .future)) (v : Value) :
    Edit (List (Value × Ref .future)) := do
  match seen.lookup v with
  | some f => return seen ++ [(v, f)]
  | none =>
    let f ← asFuture v
    attach f (.tell g)
    return seen ++ [(v, f)]

/-- The future of several awaitable values: the list of their results. -/
def group (vs : List Value) : Edit (Ref .future) := do
  if vs.isEmpty then return ← resolved (← newList [])
  let g ← create .future { origin := .group [] 0 false }
  let members ← vs.foldlM (join g) []
  let futures := members.map Prod.snd
  setGroup g futures futures.eraseDups.length false
  return g

/-- Asks for the cancellation of a future; the answer says whether there was anything to cancel. A
task passes the request on to what it waits for. -/
def cancelWithin : Nat → Ref .future → Edit Bool
  | 0, _ => return false
  | fuel + 1, f => do
    let c ← read f
    if c.status.isDone then return false
    match c.origin with
    | .plain =>
      complete f .cancelled
      return true
    | .task a waitsFor _ =>
      let passed ← match waitsFor with
        | some g => cancelWithin fuel g
        | none => pure false
      unless passed do update f fun c => { c with origin := .task a waitsFor true }
      return true
    | .group members missing cancelling =>
      let asked ← members.mapM (cancelWithin fuel)
      let any := asked.any id
      if any then update f fun c => match c.origin with
        | .group ms n _ => { c with origin := .group ms n true }
        | _ => { c with origin := .group members missing cancelling }
      return any

/-- Cancels a future. Requests travel along waits, which are no longer than there are futures. -/
def cancel (f : Ref .future) : Edit Bool := do
  cancelWithin ((← heap).futures.size + 1) f

/-- A task waits for a future. A cancellation that is due passes on to it. -/
def waitFor (t f : Ref .future) : Edit Unit := do
  attach f (.wake t)
  match (← read t).origin with
  | .task a _ cancelling =>
    let passed ← if cancelling then cancel f else pure false
    update t fun c => { c with origin := .task a (some f) (cancelling && !passed) }
  | _ => pure ()

def goOn (t : Ref .future) : Edit Unit := update t Future.goOn

end Edit
end AsyncImport
