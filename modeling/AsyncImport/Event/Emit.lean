import AsyncImport.Task.Await

/-!
# Emitting events

An event is handed to its subscribers one after the other. A subscriber that fails is logged and
stops none of the others.
-/

namespace AsyncImport.Bus

open Edit Routine

/-- The subscriptions that an event reaches, in the order in which they are called. -/
def route (b : Ref .bus) (id : Value) : Quiet (List Subscription) := do
  let bus ← read b
  let k ← key id
  unless bus.patterns.isEmpty || id.str?.isSome do throw .typeMismatch
  unless bus.sortable k do throw .typeMismatch
  return bus.select k

/-- Calls one subscriber; whether it ran without a fault. -/
def deliver (id event : Value) (s : Subscription) : Routine Bool :=
  rescue
    (do
      let _ ← callValue s.callback (if s.withId then [id, event] else [event])
      return true)
    fun _ => do
      Edit.log .error "events.subscriber_failed" [("event_id", id)]
      return false

def handOut (b : Ref .bus) (id event : Value) : Routine Nat := do
  let subscribers ← route b id
  let delivered ← subscribers.mapM (deliver id event)
  return (delivered.filter (· = true)).length

def emit (b : Ref .bus) (id event : Value) : Routine Nat := do
  Edit.journal ⟨b, id, event⟩
  handOut b id event

def emitOn (events id event : Value) : Routine Unit := do
  match events with
  | .obj .bus b =>
    let _ ← emit b id event
  | _ => raise .missing

/-- Subscribes to an event id; the counter of registrations moves on even if the id cannot be one.
-/
def subscribeTo (b : Ref .bus) (id callback priority : Value) : Edit Value := do
  unless callback.callable do throw (.subscriber (← shown callback))
  match (← heap).key? id with
  | some k => update b fun c => c.subscribe k callback priority
  | none =>
    update b Bus.skip
    throw .typeMismatch
  return callback

def parameters (f : Value) : Edit (List String) := do
  match f with
  | .host n =>
    match (← get).functions.get? n with
    | some s => return s.parameters.getD ["args"]
    | none => throw .typeMismatch
  | .library .globMatch => return ["value", "pattern"]
  | .library .transformStage | .library .dependencyStage => return ["manager", "meta"]
  | .library _ | .method .. => return ["args"]
  | .dataType .list => return ["iterable"]
  | .dataType .float => return ["x"]
  | .dataType _ => throw (.plain .value)
  | .obj .delegate _ => return []
  | .obj .decorator _ => return ["func"]
  | _ => throw .typeMismatch

/-- Subscribes to the event ids that match a pattern. The subscriber must take the id, as `src`. -/
def subscribeToPattern (b : Ref .bus) (pattern callback priority : Value) : Edit Value := do
  let names ← parameters callback
  unless names.head? = some "src" do
    throw (.patternSubscriber (Data.list (names.map Data.str)).shown)
  match pattern with
  | .str p => update b fun c => c.subscribePattern p callback priority
  | _ =>
    update b Bus.skip
    throw .typeMismatch
  return callback

def drop (b : Ref .bus) (callback : Value) : Edit Nat := do
  let bus ← read b
  write b (bus.unsubscribe callback)
  return bus.count callback

end AsyncImport.Bus
