import AsyncImport.Task.Routine
import AsyncImport.Task.Schedule

/-!
# The machine

Tasks share one world and take turns. The machine carries out one request at a time of the routine
in focus; when that routine has to wait it is set aside, and the next job is taken from the queue.
The host itself may be in focus too, as the owner of no task. `Machine.step` is `none` when nothing
is left to do.
-/

namespace AsyncImport

abbrev Meaning := Activity → Routine Value

/-- What goes on when an activity has ended. -/
structure Frame where
  /-- The activity that asked for it; none if the host did. -/
  activity : Option Activity
  next : Outcome → Routine Value

structure Focus where
  /-- The task that runs, or the host. -/
  owner : Option (Ref .future)
  /-- The activity that runs; none for a step of the host. -/
  activity : Option Activity
  code : Routine Value
  frames : List Frame

structure Machine where
  world : World := {}
  /-- The tasks that were set aside, with the activities they are within. -/
  waiting : List (Ref .future × List Frame) := []
  focus : Option Focus := none
  /-- How the host's last routine ended. -/
  answer : Option Outcome := none

instance : Inhabited Machine := ⟨{}⟩

def Edit.conclude (t : Ref .future) (o : Outcome) : Edit Unit := do
  let status ← match o, (← read t).origin with
    | .ok _, .task _ _ true => pure .cancelled
    | .ok v, _ => pure (.done v)
    | .error e, _ => pure (if (← read e).ordinary then .failed e else .cancelled)
  complete t status

namespace Machine

def edit {α : Type} (m : Machine) (e : Edit α) : Machine := { m with world := (e m.world).2 }

def failure (m : Machine) (f : Fault) : Machine × Ref .failure :=
  let r := m.world.heap.fresh .failure
  ({ m with world := { m.world with heap := m.world.heap.alloc .failure f } }, r)

def resume (m : Machine) (t : Ref .future) (o : Outcome) : Machine :=
  match m.waiting.lookup t with
  | some (k :: frames) =>
    { m with
      waiting := m.waiting.filter fun w => w.1 ≠ t
      focus := some ⟨some t, k.activity, k.next o, frames⟩
      world := { m.world with current := some t } }
  | _ => m

def start (body : Meaning) (m : Machine) (t : Ref .future) (a : Activity) : Machine :=
  { m with
    focus := some ⟨some t, some a, body a, []⟩
    world := { m.world with current := some t } }

/-- Lets a task go on; a cancellation that is due comes first. -/
def wake (body : Meaning) (m : Machine) (t : Ref .future) (o : Outcome) : Machine :=
  let c := m.world.heap.get t
  match c.status, c.origin with
  | .waiting, .task a _ cancelling =>
    let begun := m.waiting.any fun w => w.1 = t
    let m := m.edit (Edit.goOn t)
    if !cancelling then if begun then m.resume t o else start body m t a
    else if begun then
      let (m, e) := m.failure .cancelled
      m.resume t (.error e)
    else m.edit (Edit.complete t .cancelled)
  | _, _ => m

def outcome? (m : Machine) (f : Ref .future) : Machine × Option Outcome :=
  match (m.world.heap.get f).status with
  | .waiting => (m, none)
  | .done v => (m, some (.ok v))
  | .failed e => (m, some (.error e))
  | .cancelled =>
    let (m, e) := m.failure .cancelled
    (m, some (.error e))

/-- Carries out a job. A task goes on only for what it was set aside for. -/
def carryOut (body : Meaning) (m : Machine) : Job → Machine
  | .step t =>
    if (m.world.heap.get t).waitsFor? = none then wake body m t (.ok .none) else m
  | .react (.wake t) cause =>
    if (m.world.heap.get t).waitsFor? = some cause then
      match m.outcome? cause with
      | (m, some o) => wake body m t o
      | (m, none) => m
    else m
  | .react (.tell g) cause => m.edit (Edit.report g cause)

def finish (m : Machine) (owner : Option (Ref .future)) (o : Outcome) : Machine :=
  let m := { m with focus := none, world := { m.world with current := none } }
  match owner with
  | none => { m with answer := some o }
  | some t => m.edit (Edit.conclude t o)

def setAside (m : Machine) (t : Ref .future) (frames : List Frame) : Machine :=
  { m with
    focus := none
    waiting := m.waiting ++ [(t, frames)]
    world := { m.world with current := none } }

def advance (body : Meaning) (m : Machine) (x : Focus) : Machine :=
  match x.code with
  | .done v =>
    match x.frames with
    | [] => m.finish x.owner (.ok v)
    | k :: frames => { m with focus := some ⟨x.owner, k.activity, k.next (.ok v), frames⟩ }
  | .fail e =>
    match x.frames with
    | [] => m.finish x.owner (.error e)
    | k :: frames => { m with focus := some ⟨x.owner, k.activity, k.next (.error e), frames⟩ }
  | .read k => { m with focus := some { x with code := k m.world } }
  | .write w k => { m with focus := some { x with code := k }, world := w }
  | .call a k => { m with focus := some ⟨x.owner, some a, body a, ⟨x.activity, k⟩ :: x.frames⟩ }
  | .pause k =>
    match x.owner with
    | some t => (m.setAside t (⟨x.activity, k⟩ :: x.frames)).edit (Edit.enqueue (.step t))
    | none =>
      let (m, e) := m.failure (.plain .runtime)
      { m with focus := some { x with code := k (.error e) } }
  | .await f k =>
    match m.outcome? f with
    | (m, some o) => { m with focus := some { x with code := k o } }
    | (m, none) =>
      if x.owner = none || x.owner = some f then
        let (m, e) := m.failure (.plain .runtime)
        { m with focus := some { x with code := k (.error e) } }
      else match x.owner with
        | some t => (m.setAside t (⟨x.activity, k⟩ :: x.frames)).edit (Edit.waitFor t f)
        | none => m

def step (body : Meaning) (m : Machine) : Option Machine :=
  match m.focus with
  | some x => some (advance body m x)
  | none =>
    match m.world.ready with
    | [] => none
    | j :: js => some (carryOut body { m with world := { m.world with ready := js } } j)

/-- At rest: nobody is in focus and no job is queued. -/
def AtRest (m : Machine) : Prop := m.focus = none ∧ m.world.ready = []

def run (body : Meaning) : Nat → Machine → Machine
  | 0, m => m
  | fuel + 1, m =>
    match m.step body with
    | some m => run body fuel m
    | none => m

def turn (body : Meaning) : Nat → Machine → Machine
  | 0, m => m
  | fuel + 1, m =>
    match m.focus with
    | some x => turn body fuel (advance body m x)
    | none => m

def jobs (body : Meaning) (fuel : Nat) : Nat → Machine → Machine
  | 0, m => m
  | n + 1, m =>
    match m.step body with
    | some m => jobs body fuel n (m.turn body fuel)
    | none => m

/-- Lets the scheduler make a number of rounds; a round carries out the jobs queued at its start. -/
def rounds (body : Meaning) (fuel : Nat) : Nat → Machine → Machine
  | 0, m => m
  | n + 1, m => rounds body fuel n (jobs body fuel m.world.ready.length m)

def host (body : Meaning) (fuel : Nat) (m : Machine) (r : Routine Value) :
    Machine × Option Outcome :=
  let m := ({ m with focus := some ⟨none, none, r, []⟩, answer := none } : Machine).turn body fuel
  (m, m.answer)

end Machine
end AsyncImport
