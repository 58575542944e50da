import AsyncImport.Proofs.Edits

/-!
# A logic for tasks

Tasks share a world and take turns only where a routine pauses or waits. A `Protocol` says what holds
of the world whenever the turn passes (`inv`), what a task that is set aside can rely on the others
for (`rely`), and what an activity asks and promises (`pre`, `post`). `Protocol.Safe` reads a routine
as a tree of requests and says that it keeps to the protocol, provided the host keeps to its
`Conduct`.
-/

namespace AsyncImport

/-- What is expected of a host, request by request. The first argument is the activity that runs;
there is none in a step of the host. -/
structure Conduct where
  writes : Option Activity → World → World → Prop
  calls : Option Activity → World → Activity → Prop
  pauses : Option Activity → World → Prop
  awaits : Option Activity → World → Ref .future → Prop
  ends : Option Activity → World → Outcome → Prop

/-- The request that is about to be carried out is as expected. -/
def Conduct.Observed (c : Conduct) (m : Machine) : Prop :=
  ∀ x, m.focus = some x → match x.code with
    | .done v => c.ends x.activity m.world (.ok v)
    | .fail e => c.ends x.activity m.world (.error e)
    | .read _ => True
    | .write w _ => c.writes x.activity m.world w
    | .pause _ => c.pauses x.activity m.world
    | .await f _ => c.awaits x.activity m.world f
    | .call a _ => c.calls x.activity m.world a

namespace Machine

def visit (m : Machine) (r : Routine Value) : Machine :=
  { m with focus := some ⟨none, none, r, []⟩, answer := none }

/-- The runs of a machine: its own steps, and steps of the host between those of the scheduler. -/
inductive Run (body : Meaning) (conduct : Conduct) (start : Machine) : Machine → Prop
  | start : Run body conduct start start
  | step {m n : Machine} (run : Run body conduct start m) (observed : conduct.Observed m)
      (next : m.step body = some n) : Run body conduct start n
  | visit {m : Machine} (run : Run body conduct start m) (idle : m.focus = none)
      (r : Routine Value) : Run body conduct start (m.visit r)

end Machine

namespace World

/-- The activity of a task that is not done. -/
def task? (w : World) (t : Ref .future) : Option Activity :=
  if (w.heap.get t).status = .waiting then (w.heap.get t).activity? else none

inductive Yields (w : World) (f : Ref .future) : Outcome → World → Prop
  | done {v : Value} (status : (w.heap.get f).status = .done v) : Yields w f (.ok v) w
  | failed {e : Ref .failure} (status : (w.heap.get f).status = .failed e) : Yields w f (.error e) w
  | cancelled (status : (w.heap.get f).status = .cancelled) :
      Yields w f (.error (w.heap.fresh .failure)) (w.alloc .failure .cancelled)

structure Spares (t : Ref .future) (w v : World) : Prop where
  status : (v.heap.get t).status = (w.heap.get t).status
  origin : (v.heap.get t).origin = (w.heap.get t).origin

structure Mild (t : Ref .future) (w v : World) : Prop where
  status : (v.heap.get t).status = (w.heap.get t).status
  activity : (v.heap.get t).activity? = (w.heap.get t).activity?
  waitsFor : (v.heap.get t).waitsFor? = (w.heap.get t).waitsFor?

def Runs (w : World) (t : Ref .future) : Prop :=
  (w.heap.get t).status = .waiting ∧ ∃ a, (w.heap.get t).origin = .task a none false

def Active (w : World) (t : Ref .future) : Prop :=
  (w.heap.get t).status = .waiting ∧ ∃ a c, (w.heap.get t).origin = .task a none c

def Flagged (w : World) (t : Ref .future) : Prop := ∃ a f, (w.heap.get t).origin = .task a f true

structure Turns (w v : World) : Prop where
  evolves : w.Evolves v
  rests : ∀ {k : Kind} (r : Ref k), k ≠ .future → w.heap.Live r → v.heap.get r = w.heap.get r
  tasks : ∀ t, w.task? t = none → v.task? t = none
  emitted : v.emitted = w.emitted

def paused (w : World) (t : Ref .future) : World := ({ w with current := none } : World).enqueue (.step t)

def awaiting (w : World) (t f : Ref .future) : World :=
  (Edit.waitFor t f { w with current := none }).2

def resumed (w : World) (t : Ref .future) (jobs : List Job) : World :=
  { w.set t (w.heap.get t).goOn with ready := jobs, current := some t }

def ended (w : World) (t : Ref .future) (o : Outcome) : World :=
  (Edit.conclude t o { w with current := none }).2

def dropped (w : World) (t : Ref .future) (jobs : List Job) : World :=
  (Edit.complete t .cancelled { w.set t (w.heap.get t).goOn with ready := jobs }).2

def Idle (w : World) : Job → Prop
  | .step t => w.task? t = none ∨ (w.heap.get t).waitsFor? ≠ none
  | .react (.wake t) f =>
      w.task? t = none ∨ (w.heap.get t).waitsFor? ≠ some f ∨ (w.heap.get f).status = .waiting
  | .react (.tell _) _ => False

end World

structure Protocol where
  body : Meaning
  conduct : Conduct
  /-- What is known to hold whenever the turn passes. -/
  ground : World → Prop
  /-- What holds whenever the turn passes. -/
  inv : World → Prop
  /-- What lasts from one moment to a later one. -/
  lasts : World → World → Prop := World.Evolves
  /-- What others do while a task is set aside. -/
  rely : Ref .future → World → World → Prop
  /-- What others leave of a task. -/
  spares : Ref .future → World → World → Prop := World.Spares
  /-- How a task is while it runs. -/
  runs : World → Ref .future → Prop := World.Runs
  /-- What holds of a task until it starts. -/
  born : Ref .future → World → Prop
  /-- What an activity finds when another one, or a step of the host, asks for it. -/
  pre : Option Activity → Activity → World → Prop
  post : Activity → World → Outcome → World → Prop
  /-- What is shown of every change of the world. -/
  move : Option Activity → World → World → Prop
  /-- What is shown of the end of every task. -/
  leave : Ref .future → Outcome → World → Prop := fun _ _ _ => True

namespace Protocol

variable (P : Protocol) {α : Type}

/-- A change of the world that is fair to every task but the running one. -/
structure Fair (w v : World) : Prop where
  evolves : P.lasts w v
  current : v.current = w.current
  spares : ∀ t, w.task? t ≠ none → P.spares t w v
  rely : ∀ t, w.current ≠ some t → w.task? t ≠ none → P.rely t w v
  born : ∀ t, w.task? t = none → v.task? t ≠ none →
    P.born t v ∧ (v.heap.get t).waitsFor? = none

/-- The world in which a task that was set aside goes on, and with what. If its cancellation is due, it
goes on with that. -/
inductive Wakes (t : Ref .future) (w : World) : Outcome → World → Prop
  | step {jobs : List Job} (ready : w.ready = .step t :: jobs)
      (free : (w.heap.get t).waitsFor? = none) : Wakes t w (.ok .none) (w.resumed t jobs)
  | react {jobs : List Job} {f : Ref .future} {o : Outcome} {v : World}
      (ready : w.ready = .react (.wake t) f :: jobs)
      (waits : (w.heap.get t).waitsFor? = some f) (yields : w.Yields f o v) :
      Wakes t w o (v.resumed t jobs)
  | cancelled {o : Outcome} {v : World} (wakes : Wakes t w o v) (flagged : w.Flagged t) :
      Wakes t w (.error (v.heap.fresh .failure)) (v.alloc .failure .cancelled)

structure Later (t : Ref .future) (w v : World) : Prop where
  evolves : P.lasts w v
  spares : P.spares t w v
  rely : P.rely t w v

/-- A routine keeps to the protocol within an activity, and ends as `Q` says. -/
def Safe (a : Option Activity) (Q : Except (Ref .failure) α → World → Prop) :
    Routine α → World → Prop
  | .done x, w => Q (.ok x) w
  | .fail e, w => Q (.error e) w
  | .read k, w => Safe a Q (k w) w
  | .write v k, w => P.conduct.writes a w v → P.move a w v ∧ P.Fair w v ∧ Safe a Q k v
  | .call b k, w => P.conduct.calls a w b → P.pre a b w ∧
      ∀ o v, P.lasts w v → v.current = w.current → P.post b w o v → Safe a Q (k o) v
  | .pause k, w => P.conduct.pauses a w → match w.current with
      | none => Safe a Q (k (.error (w.heap.fresh .failure))) (w.alloc .failure (.plain .runtime))
      | some t => P.inv (w.paused t) ∧ ∀ u o v, P.Later t (w.paused t) u → P.ground u → P.inv u →
          u.current = none → Wakes t u o v → Safe a Q (k o) v
  | .await f k, w => P.conduct.awaits a w f →
      (∀ o v, w.Yields f o v → Safe a Q (k o) v) ∧
      ((w.heap.get f).status = .waiting → match w.current with
        | none => Safe a Q (k (.error (w.heap.fresh .failure))) (w.alloc .failure (.plain .runtime))
        | some t =>
          (t = f → Safe a Q (k (.error (w.heap.fresh .failure)))
            (w.alloc .failure (.plain .runtime))) ∧
          (t ≠ f → P.inv (w.awaiting t f) ∧
            ∀ u o v, P.Later t (w.awaiting t f) u → P.ground u → P.inv u → u.current = none →
              Wakes t u o v → Safe a Q (k o) v))

def Ends : Option (Ref .future) → Outcome → World → Prop
  | none, _, w => P.inv w
  | some t, o, w => P.inv (w.ended t o) ∧ P.leave t o w

structure Sparing (spares : Ref .future → World → World → Prop)
    (runs : World → Ref .future → Prop) : Prop where
  ofSpares : ∀ {t w v}, World.Spares t w v → spares t w v
  trans : ∀ {t u w v}, spares t u w → spares t w v → spares t u v
  mild : ∀ {t w v}, spares t w v → World.Mild t w v
  resumed : ∀ {w : World} {t}, w.Runs t → runs w t
  active : ∀ {w : World} {t}, runs w t → w.Active t
  stays : ∀ {t w v}, runs w t → spares t w v → runs v t
  awaiting : ∀ {w : World} {s t f : Ref .future}, runs w t → (w.heap.get f).status = .waiting → t ≠ f → s ≠ t →
    w.task? s ≠ none → spares s w (w.awaiting t f)

structure Lawful : Prop where
  endures : ∀ {w v}, P.lasts w v → w.Endures v
  lasting : ∀ {u w v}, P.lasts u w → P.lasts w v → P.lasts u v
  passing : ∀ {w v : World}, w.Turns v → P.lasts w v
  sparing : Sparing P.spares P.runs
  trans : ∀ {t u w v}, P.rely t u w → P.rely t w v → P.rely t u v
  turn : ∀ {t} {w v : World}, w.Turns v → P.rely t w v
  born : ∀ {t} {w v : World}, P.born t w → P.Later t w v → P.born t v
  failure : ∀ {w : World}, P.inv w → P.inv (w.alloc .failure .cancelled)
  report : ∀ {w : World} {g f jobs}, P.ground w → P.inv w → w.current = none →
    w.ready = .react (.tell g) f :: jobs → P.inv (Edit.report g f { w with ready := jobs }).2
  dropped : ∀ {w : World} {t : Ref .future} {jobs}, P.ground w → P.inv w → w.current = none →
    w.task? t ≠ none → w.Flagged t → w.ready = .step t :: jobs → P.inv (w.dropped t jobs)
  idle : ∀ {w : World} {j : Job} {jobs}, P.ground w → P.inv w → w.current = none → w.ready = j :: jobs →
    w.Idle j → P.inv { w with ready := jobs }
  spec : ∀ {c a w}, P.pre c a w → P.Safe (some a)
    (fun o v => P.conduct.ends (some a) v o → P.post a w o v) (P.body a) w
  start : ∀ {t : Ref .future} {a} {w : World} {jobs}, P.ground w → P.inv w → w.current = none →
    w.task? t = some a → w.ready = .step t :: jobs → (w.heap.get t).waitsFor? = none → P.born t w →
    P.Safe (some a) (fun o v => P.conduct.ends (some a) v o → P.Ends (some t) o v) (P.body a)
      (w.resumed t jobs)
  visit : ∀ {w} (r : Routine Value), P.ground w → P.inv w → w.current = none →
    P.Safe none (fun o v => P.conduct.ends none v o → P.Ends none o v) r w

end Protocol
end AsyncImport
