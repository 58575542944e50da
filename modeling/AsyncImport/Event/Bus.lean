import AsyncImport.Event.Pattern
import AsyncImport.Value.Key

/-!
# The event bus

Subscriptions to single event ids and to patterns of them. `Bus.select` lists the subscriptions that
an event reaches: by falling priority, and among equals in the order in which they were made.
-/

namespace AsyncImport

/-- The number that a value stands for when it is used as a priority. -/
inductive Priority where
  | int (i : Int)
  | real (x : Binary)
  deriving DecidableEq, Repr

namespace Priority

def ofValue? : Value → Option Priority
  | .int i => some (.int i)
  | .bool b => some (.int (if b then 1 else 0))
  | .real x => some (.real x)
  | _ => none

def fraction : Priority → Int × Nat
  | .int i => (i, 1)
  | .real x => (x.signed x.numerator, x.denominator)

/-- The place of an infinite number: below or above all finite ones. -/
def tier : Priority → Int
  | .int _ => 0
  | .real x => if x.isFinite || x.isNaN then 0 else if x.negative then -1 else 1

def lt (a b : Priority) : Bool :=
  if a.tier ≠ b.tier then a.tier < b.tier
  else if a.tier ≠ 0 then false
  else
    let (m, d) := a.fraction
    let (n, e) := b.fraction
    m * e < n * d

end Priority

structure Subscription where
  callback : Value
  priority : Value
  /-- The number of earlier registrations. -/
  order : Nat
  /-- A pattern's subscriber is also told the event id. -/
  withId : Bool := false
  deriving DecidableEq, Repr

def Subscription.notAfter (s t : Subscription) : Bool :=
  match Priority.ofValue? s.priority, Priority.ofValue? t.priority with
  | some p, some q => q.lt p || (!p.lt q && s.order ≤ t.order)
  | _, _ => true

structure Bus where
  routes : Assoc Key (List Subscription) := {}
  patterns : List (String × Subscription) := []
  counter : Nat := 0
  deriving DecidableEq, Repr, Inhabited

namespace Bus

def subscribe (b : Bus) (id : Key) (callback priority : Value) : Bus :=
  let s : Subscription := ⟨callback, priority, b.counter, false⟩
  { b with
    routes := b.routes.insert id ((b.routes.get? id).getD [] ++ [s])
    counter := b.counter + 1 }

def subscribePattern (b : Bus) (pattern : String) (callback priority : Value) : Bus :=
  let s : Subscription := ⟨callback, priority, b.counter, true⟩
  { b with patterns := b.patterns ++ [(pattern, s)], counter := b.counter + 1 }

def skip (b : Bus) : Bus := { b with counter := b.counter + 1 }

def live (b : Bus) : List Subscription :=
  b.routes.values.flatten ++ b.patterns.map Prod.snd

def unsubscribe (b : Bus) (callback : Value) : Bus :=
  { b with
    routes := b.routes.mapValues fun ss => ss.filter fun s => s.callback ≠ callback
    patterns := b.patterns.filter fun p => p.2.callback ≠ callback }

def count (b : Bus) (callback : Value) : Nat :=
  (b.live.filter fun s => s.callback = callback).length

/-- The subscriptions that an event id reaches, in order of registration within each group. -/
def reached (b : Bus) (id : Key) : List Subscription :=
  let exact := (b.routes.get? id).getD []
  match id with
  | [.str s] => exact ++ (b.patterns.filter fun p => Event.Pattern.admits p.1 s).map Prod.snd
  | _ => exact

/-- The subscriptions that an event id reaches, in the order in which they are called. -/
def select (b : Bus) (id : Key) : List Subscription :=
  (b.reached id).mergeSort Subscription.notAfter

def sortable (b : Bus) (id : Key) : Bool :=
  (b.reached id).all fun s => (Priority.ofValue? s.priority).isSome

end Bus
end AsyncImport
