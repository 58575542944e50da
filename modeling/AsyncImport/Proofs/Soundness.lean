import AsyncImport.Proofs.Cancelling

/-!
# Soundness

A machine whose tasks keep to a protocol is `Protocol.Good`: the routine in focus is safe, so is every
task that was set aside, whenever it is woken, and the tasks that have not begun are as they were
born. `good_run` says that a machine stays so along every run.
-/

namespace AsyncImport.Protocol

variable {P : Protocol}

/-- The activities below the running one keep to the protocol when that ends as `Q` says. -/
def Stack (P : Protocol) (owner : Option (Ref .future)) :
    Option Activity → List Frame → (Outcome → World → Prop) → World → Prop
  | a, [], Q, w => ∀ o v, P.lasts w v → v.current = owner → P.conduct.ends a v o → Q o v →
      P.Ends owner o v
  | a, k :: frames, Q, w => ∃ R, Stack P owner k.activity frames R w ∧
      ∀ o v, P.lasts w v → v.current = owner → P.conduct.ends a v o → Q o v →
        P.Safe k.activity R (k.next o) v

def Asleep (P : Protocol) (t : Ref .future) : List Frame → World → Prop
  | [], _ => False
  | k :: frames, w => ∃ Q, P.Stack (some t) k.activity frames Q w ∧
      ∀ u o v, P.Later t w u → P.ground u → P.inv u → u.current = none → Wakes t u o v →
        P.Safe k.activity Q (k.next o) v

structure Good (P : Protocol) (m : Machine) : Prop where
  idle : m.focus = none → P.inv m.world ∧ m.world.current = none
  owner : ∀ x, m.focus = some x → m.world.current = x.owner
  runs : ∀ x t, m.focus = some x → x.owner = some t →
    P.runs m.world t ∧ ∀ e ∈ m.waiting, e.1 ≠ t
  safe : ∀ x, m.focus = some x → ∃ Q, P.Safe x.activity Q x.code m.world ∧
    P.Stack x.owner x.activity x.frames Q m.world
  live : ∀ e ∈ m.waiting, m.world.heap.Live e.1
  asleep : ∀ e ∈ m.waiting, m.world.task? e.1 ≠ none → P.Asleep e.1 e.2 m.world
  unborn : ∀ t, m.world.task? t ≠ none → (∀ e ∈ m.waiting, e.1 ≠ t) →
    (∀ x, m.focus = some x → x.owner ≠ some t) →
    P.born t m.world ∧ (m.world.heap.get t).waitsFor? = none

section

variable (lawful : P.Lawful)
include lawful

theorem Stack.mono {owner : Option (Ref .future)} {frames : List Frame} {w v : World}
    (lasts : P.lasts w v) : ∀ {a : Option Activity} {Q : Outcome → World → Prop},
    P.Stack owner a frames Q w → P.Stack owner a frames Q v := by
  induction frames with
  | nil => exact fun stack o u next => stack o u (lawful.lasting lasts next)
  | cons k frames ih =>
    rintro a Q ⟨R, below, continues⟩
    exact ⟨R, ih below, fun o u next => continues o u (lawful.lasting lasts next)⟩

theorem lasts_refl (w : World) : P.lasts w w := lawful.passing (.refl w)

theorem Later.trans {t : Ref .future} {u w v : World} (first : P.Later t u w)
    (next : P.Later t w v) : P.Later t u v where
  evolves := lawful.lasting first.evolves next.evolves
  spares := lawful.sparing.trans first.spares next.spares
  rely := lawful.trans first.rely next.rely

theorem Later.passing {t : Ref .future} {w v : World} (turns : w.Turns v) (spares : P.spares t w v) :
    P.Later t w v :=
  ⟨lawful.passing turns, spares, lawful.turn turns⟩

theorem Later.ofTurns {t : Ref .future} {w v : World} (turns : w.Turns v)
    (spares : World.Spares t w v) : P.Later t w v :=
  .passing lawful turns (lawful.sparing.ofSpares spares)

theorem Asleep.mono {t : Ref .future} {frames : List Frame} {w v : World} (later : P.Later t w v)
    (asleep : P.Asleep t frames w) : P.Asleep t frames v := by
  cases frames with
  | nil => exact asleep
  | cons k frames =>
    obtain ⟨Q, stack, wakes⟩ := asleep
    exact ⟨Q, stack.mono lawful later.evolves, fun u o x next => wakes u o x (later.trans lawful next)⟩

theorem unborn_mono {t : Ref .future} {w v : World} (later : P.Later t w v)
    (unborn : P.born t w ∧ (w.heap.get t).waitsFor? = none) :
    P.born t v ∧ (v.heap.get t).waitsFor? = none :=
  ⟨lawful.born unborn.1 later, (lawful.sparing.mild later.spares).waitsFor.trans unborn.2⟩

theorem Fair.ofTurns {w v : World} (turns : w.Turns v) (current : v.current = w.current)
    (futures : ∀ f : Ref .future, v.heap.get f = w.heap.get f) : P.Fair w v where
  evolves := lawful.passing turns
  current := current
  spares t _ := lawful.sparing.ofSpares (.ofGet (futures t))
  rely _ _ _ := lawful.turn turns
  born t none task := absurd (turns.tasks t none) task

theorem Fair.refl (w : World) : P.Fair w w := Fair.ofTurns lawful (.refl w) rfl fun _ => rfl

theorem Fair.failure (w : World) (f : Fault) : P.Fair w (w.alloc .failure f) :=
  Fair.ofTurns lawful (.failure w f) rfl fun _ => World.get_alloc_kind _ (by decide)

omit lawful in
theorem Fair.later {w v : World} {t : Ref .future} (fair : P.Fair w v) (other : w.current ≠ some t)
    (task : w.task? t ≠ none) : P.Later t w v :=
  ⟨fair.evolves, fair.spares t task, fair.rely t other task⟩

/-! ## The routine in focus -/

theorem Good.proceed {m : Machine} {x y : Focus} {v : World} (good : P.Good m)
    (focus : m.focus = some x) (owner : y.owner = x.owner) (fair : P.Fair m.world v)
    (safe : ∃ Q, P.Safe y.activity Q y.code v ∧ P.Stack y.owner y.activity y.frames Q v) :
    P.Good { m with focus := some y, world := v } where
  idle := by simp
  owner := by
    rintro _ ⟨⟩
    rw [fair.current, good.owner x focus, owner]
  runs := by
    rintro _ t ⟨⟩ own
    obtain ⟨runs, apart⟩ := good.runs x t focus (owner ▸ own)
    have task := (lawful.sparing.active runs).task?
    exact ⟨lawful.sparing.stays runs (fair.spares t task), apart⟩
  safe := by
    rintro _ ⟨⟩
    exact safe
  live e mem := (lawful.endures fair.evolves).live (good.live e mem)
  asleep e mem task := by
    have own : m.world.current ≠ some e.1 := by
      rw [good.owner x focus]
      exact fun own => (good.runs x e.1 focus own).2 e mem rfl
    have known : m.world.task? e.1 ≠ none := fun none =>
      task ((lawful.endures fair.evolves).task?_none (good.live e mem) none)
    exact (good.asleep e mem known).mono lawful (fair.later own known)
  unborn t task apart notOwner := by
    have own : m.world.current ≠ some t := by
      rw [good.owner x focus, ← owner]
      exact notOwner y rfl
    by_cases known : m.world.task? t = none
    · exact fair.born t known task
    · refine unborn_mono lawful (fair.later own known) (good.unborn t known apart ?_)
      rintro _ same
      rw [focus] at same
      obtain rfl := Option.some.inj same
      exact owner ▸ notOwner y rfl

theorem Good.pass {m n : Machine} {x : Focus} (good : P.Good m) (focus : m.focus = some x)
    (idle : n.focus = none) (turns : m.world.Turns n.world)
    (spares : ∀ t, x.owner ≠ some t → m.world.task? t ≠ none → P.spares t m.world n.world)
    (inv : P.inv n.world) (current : n.world.current = none)
    (old : ∀ e ∈ m.waiting, e ∈ n.waiting)
    (new : ∀ e ∈ n.waiting, e ∈ m.waiting ∨ x.owner = some e.1 ∧ P.Asleep e.1 e.2 n.world)
    (left : ∀ t, x.owner = some t → n.world.task? t ≠ none → ∃ e ∈ n.waiting, e.1 = t) :
    P.Good n where
  idle _ := ⟨inv, current⟩
  owner := by simp [idle]
  runs := by simp [idle]
  safe := by simp [idle]
  live e mem := by
    rcases new e mem with old | ⟨own, -⟩
    · exact turns.evolves.live (good.live e old)
    · have active := lawful.sparing.active (good.runs x e.1 focus own).1
      exact turns.evolves.live (World.task?_live active.task?)
  asleep e mem task := by
    rcases new e mem with old | ⟨-, asleep⟩
    · have task' : m.world.task? e.1 ≠ none := fun ended => task (turns.tasks _ ended)
      have other : x.owner ≠ some e.1 := fun own => (good.runs x e.1 focus own).2 e old rfl
      exact (good.asleep e old task').mono lawful
        (.passing lawful turns (spares e.1 other task'))
    · exact asleep
  unborn t task apart _ := by
    have task' : m.world.task? t ≠ none := fun ended => task (turns.tasks _ ended)
    have other : x.owner ≠ some t := fun own => by
      obtain ⟨e, mem, same⟩ := left t own task
      exact apart e mem same
    refine unborn_mono lawful (.passing lawful turns (spares t other task'))
      (good.unborn t task' (fun e mem => apart e (old e mem)) ?_)
    rintro y same
    rw [focus] at same
    obtain rfl := Option.some.inj same
    exact other

theorem Good.returned {m : Machine} {x : Focus} (good : P.Good m) (focus : m.focus = some x)
    {o : Outcome} (ends : P.conduct.ends x.activity m.world o)
    {Q : Outcome → World → Prop} (result : Q o m.world)
    (stack : P.Stack x.owner x.activity x.frames Q m.world) :
    P.Good (match x.frames with
      | [] => m.finish x.owner o
      | k :: frames => { m with focus := some ⟨x.owner, k.activity, k.next o, frames⟩ }) := by
  have current := good.owner x focus
  cases frames : x.frames with
  | nil =>
    rw [frames] at stack
    have final := stack o m.world (lasts_refl lawful _) current ends result
    cases owner : x.owner with
    | none =>
      rw [owner] at final current
      have same : ({ m.world with current := none } : World) = m.world := by rw [← current]
      refine good.pass lawful focus rfl (.ofHeapEq rfl rfl rfl)
        (fun _ _ _ => lawful.sparing.ofSpares (.ofGet rfl)) ?_ rfl
        (fun _ mem => mem) (fun _ mem => .inl mem) (by simp [owner])
      show P.inv { m.world with current := none }
      rw [same]
      exact final
    | some t =>
      rw [owner] at final
      have world : (m.finish (some t) o).world = m.world.ended t o := rfl
      obtain ⟨runs, -⟩ := good.runs x t focus owner
      refine good.pass lawful focus rfl ?_ ?_ final.1 (World.current_ended _ _ _)
        (fun _ mem => mem) (fun _ mem => .inl mem) ?_
      · exact World.turns_ended _ _ _
      · exact fun s other _ => lawful.sparing.ofSpares
          (.ofGet (World.get_ended_ne _ _ fun same => other (by rw [owner, same])))
      · rintro s own task
        obtain rfl := Option.some.inj (owner.symm.trans own)
        exact absurd (World.task?_ended o (lawful.sparing.active runs).task?) task
  | cons k frames' =>
    rw [frames] at stack
    obtain ⟨R, below, continues⟩ := stack
    exact good.proceed lawful focus rfl (Fair.refl lawful _)
      ⟨R, continues o _ (lasts_refl lawful _) current ends result, below⟩

omit lawful in
theorem outcome?_eq (m : Machine) (f : Ref .future) :
    (∃ o v, m.world.Yields f o v ∧ m.outcome? f = ({ m with world := v }, some o)) ∨
      (m.world.heap.get f).status = .waiting ∧ m.outcome? f = (m, none) := by
  unfold Machine.outcome?
  cases status : (m.world.heap.get f).status with
  | waiting => exact .inr ⟨rfl, rfl⟩
  | done v => exact .inl ⟨_, _, .done status, rfl⟩
  | failed e => exact .inl ⟨_, _, .failed status, rfl⟩
  | cancelled => exact .inl ⟨_, _, .cancelled status, rfl⟩

theorem Fair.yields {w v : World} {f : Ref .future} {o : Outcome} (yields : w.Yields f o v) :
    P.Fair w v := by
  cases yields with
  | done | failed => exact Fair.refl lawful w
  | cancelled => exact Fair.failure lawful w _

theorem Good.setAside {m n : Machine} {x : Focus} {t : Ref .future} {frames : List Frame}
    (good : P.Good m) (focus : m.focus = some x) (owner : x.owner = some t) (idle : n.focus = none)
    (waiting : n.waiting = m.waiting ++ [(t, frames)]) (turns : m.world.Turns n.world)
    (spares : ∀ s, x.owner ≠ some s → m.world.task? s ≠ none → P.spares s m.world n.world)
    (inv : P.inv n.world) (current : n.world.current = none) (asleep : P.Asleep t frames n.world) :
    P.Good n := by
  refine good.pass lawful focus idle turns spares inv current (fun e mem => ?_) (fun e mem => ?_)
    fun s own _ => ?_
  · exact waiting ▸ List.mem_append_left _ mem
  · rw [waiting] at mem
    rcases List.mem_append.mp mem with old | new
    · exact .inl old
    · obtain rfl := List.mem_singleton.mp new
      exact .inr ⟨owner, asleep⟩
  · obtain rfl := Option.some.inj (owner.symm.trans own)
    exact ⟨_, waiting ▸ List.mem_append_right _ (List.mem_singleton.mpr rfl), rfl⟩

theorem Good.pauses {m : Machine} {x : Focus} (good : P.Good m) (observed : P.conduct.Observed m)
    (focus : m.focus = some x) {k : Outcome → Routine Value} (code : x.code = .pause k) :
    P.Good (m.advance P.body x) := by
  have current := good.owner x focus
  obtain ⟨Q, safe, stack⟩ := good.safe x focus
  have expected := observed x focus
  unfold Machine.advance
  simp only [code]
  rw [code] at safe expected
  have safe := safe expected
  cases owner : x.owner with
  -- a step of the host cannot give way
  | none =>
    rw [current, owner] at safe
    have fair := Fair.failure lawful m.world (.plain .runtime)
    exact good.proceed lawful focus owner.symm fair
      ⟨Q, safe, owner ▸ stack.mono lawful fair.evolves⟩
  | some t =>
    rw [current, owner] at safe
    obtain ⟨inv, wakes⟩ := safe
    have turns := World.turns_paused m.world t
    have stack : P.Stack (some t) x.activity x.frames Q (m.world.paused t) :=
      owner ▸ stack.mono lawful (lawful.passing turns)
    exact good.setAside lawful (n := (m.setAside t (⟨x.activity, k⟩ :: x.frames)).edit (Edit.enqueue (.step t)))
      focus owner rfl rfl turns (fun _ _ _ => lawful.sparing.ofSpares (.ofGet rfl)) inv rfl ⟨Q, stack, wakes⟩

theorem Good.awaits {m : Machine} {x : Focus} (good : P.Good m) (observed : P.conduct.Observed m)
    (focus : m.focus = some x) {f : Ref .future} {k : Outcome → Routine Value}
    (code : x.code = .await f k) : P.Good (m.advance P.body x) := by
  have current := good.owner x focus
  obtain ⟨Q, safe, stack⟩ := good.safe x focus
  have expected := observed x focus
  unfold Machine.advance
  simp only [code]
  rw [code] at safe expected
  obtain ⟨ready, wait⟩ := safe expected
  rcases outcome?_eq m f with ⟨o, v, yields, asked⟩ | ⟨waiting, asked⟩
  · have fair : P.Fair m.world v := Fair.yields lawful yields
    simp only [asked]
    exact good.proceed lawful focus rfl fair ⟨Q, ready o v yields, stack.mono lawful fair.evolves⟩
  · simp only [asked]
    have fair := Fair.failure lawful m.world (.plain .runtime)
    have wait := wait waiting
    cases owner : x.owner with
    | none =>
      rw [current, owner] at wait
      simp only [decide_true, Bool.true_or, if_true]
      exact good.proceed lawful focus owner.symm fair
        ⟨Q, wait, owner ▸ stack.mono lawful fair.evolves⟩
    | some t =>
      rw [current, owner] at wait
      -- a task that would wait for itself is refused as well
      by_cases own : t = f
      · subst own
        simp only [decide_true, Bool.or_true, if_true]
        exact good.proceed lawful focus owner.symm fair
          ⟨Q, wait.1 rfl, owner ▸ stack.mono lawful fair.evolves⟩
      · obtain ⟨inv, wakes⟩ := wait.2 own
        obtain ⟨runs, -⟩ := good.runs x t focus owner
        have parked := World.parked_awaiting waiting (lawful.sparing.active runs) own
        have foreign : ¬ (decide (some t = none) || decide (some t = some f)) = true := by
          simp [own]
        rw [if_neg foreign]
        have stack : P.Stack (some t) x.activity x.frames Q (m.world.awaiting t f) :=
          owner ▸ stack.mono lawful (lawful.passing parked.turns)
        exact good.setAside lawful (n := (m.setAside t (⟨x.activity, k⟩ :: x.frames)).edit (Edit.waitFor t f))
          focus owner rfl rfl parked.turns (fun s other task => lawful.sparing.awaiting runs waiting own
            (fun same => other (by rw [owner, same])) task) inv parked.current ⟨Q, stack, wakes⟩

/-- A machine whose tasks keep to the protocol carries out a request of the routine in focus. -/
theorem Good.advance {m : Machine} {x : Focus} (good : P.Good m) (observed : P.conduct.Observed m)
    (focus : m.focus = some x) : P.Good (m.advance P.body x) := by
  have current := good.owner x focus
  obtain ⟨Q, safe, stack⟩ := good.safe x focus
  have expected := observed x focus
  cases code : x.code with
  | done v =>
    simp only [Machine.advance, code]
    rw [code] at safe expected
    exact good.returned lawful focus expected safe stack
  | fail e =>
    simp only [Machine.advance, code]
    rw [code] at safe expected
    exact good.returned lawful focus expected safe stack
  | read k =>
    simp only [Machine.advance, code]
    rw [code] at safe
    exact good.proceed lawful focus rfl (Fair.refl lawful _) ⟨Q, safe, stack⟩
  | write v k =>
    simp only [Machine.advance, code]
    rw [code] at safe expected
    obtain ⟨-, fair, next⟩ := safe expected
    exact good.proceed lawful focus rfl fair ⟨Q, next, stack.mono lawful fair.evolves⟩
  | call a k =>
    simp only [Machine.advance, code]
    rw [code] at safe expected
    obtain ⟨pre, next⟩ := safe expected
    refine good.proceed lawful focus rfl (Fair.refl lawful _) ⟨_, lawful.spec pre, Q, stack, ?_⟩
    intro o v evolves owner ends post
    exact next o v evolves (owner.trans current.symm) (post ends)
  | pause k => exact good.pauses lawful observed focus code
  | await f k => exact good.awaits lawful observed focus code

/-! ## Jobs -/

theorem Good.schedule {m : Machine} {v : World} (good : P.Good m) (idle : m.focus = none)
    (turns : m.world.Turns v)
    (spares : ∀ t, m.world.task? t ≠ none → v.task? t ≠ none → World.Spares t m.world v)
    (inv : P.inv v) (current : v.current = none) : P.Good { m with world := v } where
  idle _ := ⟨inv, current⟩
  owner := by simp [idle]
  runs := by simp [idle]
  safe := by simp [idle]
  live e mem := turns.evolves.live (good.live e mem)
  asleep e mem task := by
    have task' : m.world.task? e.1 ≠ none := fun ended => task (turns.tasks _ ended)
    exact (good.asleep e mem task').mono lawful (.ofTurns lawful turns (spares e.1 task' task))
  unborn t task apart _ := by
    have task' : m.world.task? t ≠ none := fun ended => task (turns.tasks _ ended)
    exact unborn_mono lawful (.ofTurns lawful turns (spares t task' task))
      (good.unborn t task' apart (by simp [idle]))

theorem Good.enter {m : Machine} {v : World} {t : Ref .future} {x : Focus}
    {entries : List (Ref .future × List Frame)} {answer : Option Outcome}
    (good : P.Good m) (idle : m.focus = none) (turns : m.world.Turns v) (runs : P.runs v t)
    (spares : ∀ s, s ≠ t → World.Spares s m.world v) (current : v.current = some t)
    (owner : x.owner = some t)
    (apart : ∀ e ∈ entries, e.1 ≠ t) (fewer : ∀ e ∈ entries, e ∈ m.waiting)
    (others : ∀ e ∈ m.waiting, e.1 ≠ t → e ∈ entries)
    (safe : ∃ Q, P.Safe x.activity Q x.code v ∧ P.Stack x.owner x.activity x.frames Q v) :
    P.Good ⟨v, entries, some x, answer⟩ := by
  refine ⟨by simp, ?_, ?_, ?_, ?_, ?_, ?_⟩
  · rintro _ ⟨⟩
    exact current.trans owner.symm
  · rintro _ s ⟨⟩ own
    obtain rfl := Option.some.inj (owner.symm.trans own)
    exact ⟨runs, apart⟩
  · rintro _ ⟨⟩
    exact safe
  · exact fun e mem => turns.evolves.live (good.live e (fewer e mem))
  · intro e mem task
    have task' : m.world.task? e.1 ≠ none := fun ended => task (turns.tasks _ ended)
    exact (good.asleep e (fewer e mem) task').mono lawful
      (.ofTurns lawful turns (spares e.1 (apart e mem)))
  · intro s task alone notOwner
    have task' : m.world.task? s ≠ none := fun ended => task (turns.tasks _ ended)
    have other : s ≠ t := by
      rintro rfl
      exact notOwner x rfl owner
    refine unborn_mono lawful (.ofTurns lawful turns (spares s other))
      (good.unborn s task' ?_ (by simp [idle]))
    intro e mem same
    subst same
    exact alone e (others e mem other) rfl

omit lawful in
theorem lookup_mem {t : Ref .future} {frames : List Frame} :
    ∀ {entries : List (Ref .future × List Frame)}, entries.lookup t = some frames →
      (t, frames) ∈ entries
  | (s, fs) :: rest, found => by
    rw [Assoc.lookup_cons] at found
    split at found
    · next same =>
      obtain rfl := same
      obtain rfl := Option.some.inj found
      exact List.mem_cons_self
    · exact List.mem_cons_of_mem _ (lookup_mem found)

omit lawful in
theorem lookup_none {t : Ref .future} :
    ∀ {entries : List (Ref .future × List Frame)}, entries.lookup t = none →
      ∀ e ∈ entries, e.1 ≠ t
  | [], _ => by simp
  | (s, fs) :: rest, found => by
    rw [Assoc.lookup_cons] at found
    split at found
    · simp at found
    · next other =>
      intro e mem
      rcases List.mem_cons.mp mem with rfl | old
      · exact fun same => other same.symm
      · exact lookup_none found e old

/-- A task that is due goes on, or starts, or is not to begin any more. -/
theorem Good.wake {m : Machine} {t : Ref .future} {o : Outcome} {v : World} {jobs : List Job}
    (good : P.Good m) (ground : P.ground m.world) (idle : m.focus = none) (turns : m.world.Turns v)
    (futures : ∀ f : Ref .future, v.heap.get f = m.world.heap.get f)
    (task : m.world.task? t ≠ none) (wakes : Wakes t m.world o (v.resumed t jobs))
    (first : (m.world.heap.get t).waitsFor? = none →
      m.world.ready = .step t :: jobs ∧ v = m.world) :
    P.Good (Machine.wake P.body { m with world := { v with ready := jobs } } t o) := by
  obtain ⟨inv, current⟩ := good.idle idle
  obtain ⟨a, running⟩ := Option.ne_none_iff_exists'.mp task
  obtain ⟨waiting, activity⟩ := World.task?_eq_some.mp running
  obtain ⟨f, cancelling, origin⟩ := World.activity?_eq_some.mp activity
  have going : m.world.Turns (v.resumed t jobs) := turns.trans (World.turns_resumed v t jobs)
  have runs : (v.resumed t jobs).Runs t :=
    World.runs_resumed jobs ((World.Spares.ofGet (futures t)).task?.trans_ne task)
  have others (s : Ref .future) (other : s ≠ t) : World.Spares s m.world (v.resumed t jobs) :=
    .ofGet ((World.get_resumed_ne v jobs other).trans (futures s))
  unfold Machine.wake
  simp only [futures, waiting, origin]
  cases found : m.waiting.lookup t with
  | some frames =>
    have mem := lookup_mem found
    have begun : (m.waiting.any fun e => decide (e.1 = t)) = true :=
      List.any_eq_true.mpr ⟨_, mem, by simp⟩
    have asleep := good.asleep _ mem task
    cases frames with
    | nil => exact asleep.elim
    | cons k frames =>
      obtain ⟨Q, stack, continues⟩ := asleep
      have later := Later.ofTurns lawful (.refl m.world) (.refl t _)
      -- the task goes on, be it with what it waited for or with its cancellation
      have enter {p : Outcome} {x : World} (woken : Wakes t m.world p x) (turns : m.world.Turns x)
          (runs : P.runs x t) (spares : ∀ s, s ≠ t → World.Spares s m.world x)
          (own : x.current = some t) :
          P.Good ⟨x, m.waiting.filter fun e => e.1 ≠ t, some ⟨some t, k.activity, k.next p, frames⟩,
            m.answer⟩ :=
        good.enter lawful idle turns runs spares own rfl
          (fun e mem => by simpa using (List.mem_filter.mp mem).2)
          (fun e mem => (List.mem_filter.mp mem).1)
          (fun e mem other => List.mem_filter.mpr ⟨mem, by simpa using other⟩)
          ⟨Q, continues m.world p x later ground inv current woken,
            stack.mono lawful (lawful.passing turns)⟩
      cases cancelling with
      | false =>
        simp only [Bool.not_false, if_true, Machine.edit, begun, Machine.resume, found]
        exact enter wakes going (lawful.sparing.resumed runs) others rfl
      | true =>
        simp only [Bool.not_true, Bool.false_eq_true, if_false, if_true, Machine.edit, begun,
          Machine.failure, Machine.resume, found]
        have told : World.Spares t (v.resumed t jobs) ((v.resumed t jobs).alloc .failure .cancelled) :=
          .ofGet (World.get_alloc_kind _ (by decide))
        exact enter (.cancelled wakes ⟨a, f, origin⟩) (going.trans (.failure _ _))
          (lawful.sparing.resumed (runs.ofSpares told))
          (fun s other => (others s other).trans (.ofGet (World.get_alloc_kind _ (by decide)))) rfl
  | none =>
    have apart := lookup_none found
    have unbegun : (m.waiting.any fun e => decide (e.1 = t)) = false := by
      simpa using apart
    obtain ⟨born, free⟩ := good.unborn t task apart (by simp [idle])
    obtain ⟨ready, rfl⟩ := first free
    cases cancelling with
    | false =>
      simp only [Bool.not_false, if_true, Machine.edit, unbegun, Machine.start]
      have safe := lawful.start ground inv current running ready free born
      exact good.enter lawful idle going (lawful.sparing.resumed runs) others rfl rfl apart
        (fun e mem => mem) (fun e mem _ => mem) ⟨_, safe, fun o v _ _ ends result => result ends⟩
    | true =>
      simp only [Bool.not_true, Bool.false_eq_true, if_false, Machine.edit, unbegun]
      have flagged : m.world.Flagged t := ⟨a, f, origin⟩
      have popped : m.world.Turns { m.world.set t (m.world.heap.get t).goOn with ready := jobs } :=
        (World.Turns.setFuture _ t _ (World.follows_goOn _)).trans (.ofHeapEq rfl rfl rfl)
      have inv' : P.inv (m.world.dropped t jobs) :=
        lawful.dropped ground inv current task flagged ready
      refine good.schedule lawful idle (popped.trans (World.turns_completed _ t .cancelled))
        (fun s _ left => ?_) inv' ((World.current_completed _ t .cancelled).trans current)
      have other : s ≠ t := by
        rintro rfl
        exact left (World.task?_completed (by simp) _)
      exact .ofGet ((World.get_completed_ne _ _ other).trans (World.get_set_ne _ other))

omit lawful in
theorem yields_popped {w v : World} {f : Ref .future} {o : Outcome} {jobs : List Job}
    (yields : ({ w with ready := jobs } : World).Yields f o v) :
    ∃ u, w.Yields f o u ∧ v = { u with ready := jobs } := by
  cases yields with
  | done status => exact ⟨w, .done status, rfl⟩
  | failed status => exact ⟨w, .failed status, rfl⟩
  | cancelled status => exact ⟨_, .cancelled status, rfl⟩

omit lawful in
theorem turns_yields {w v : World} {f : Ref .future} {o : Outcome} (yields : w.Yields f o v) :
    w.Turns v := by
  cases yields with
  | done | failed => exact .refl w
  | cancelled => exact .failure w _

omit lawful in
theorem get_yields {w v : World} {f : Ref .future} {o : Outcome} (yields : w.Yields f o v)
    (g : Ref .future) : v.heap.get g = w.heap.get g := by
  cases yields with
  | done | failed => rfl
  | cancelled => exact World.get_alloc_kind _ (by decide)

omit lawful in
/-- What is done, or is no task, is not woken. -/
theorem wake_ended {m : Machine} {t : Ref .future} {o : Outcome} (ended : m.world.task? t = none) :
    Machine.wake P.body m t o = m := by
  unfold World.task? Future.activity? at ended
  simp only [Machine.wake]
  split
  · next waiting origin => simp [waiting, origin] at ended
  · rfl

theorem Good.carryOut {m : Machine} {j : Job} {jobs : List Job} (good : P.Good m)
    (ground : P.ground m.world) (idle : m.focus = none) (ready : m.world.ready = j :: jobs) :
    P.Good (Machine.carryOut P.body { m with world := { m.world with ready := jobs } } j) := by
  obtain ⟨inv, current⟩ := good.idle idle
  have popped : m.world.Turns { m.world with ready := jobs } := .ofHeapEq rfl rfl rfl
  have skip (nothing : m.world.Idle j) : P.Good { m with world := { m.world with ready := jobs } } :=
    good.schedule lawful idle popped (fun t _ _ => .ofGet rfl)
      (lawful.idle ground inv current ready nothing) current
  unfold Machine.carryOut
  cases j with
  | step t =>
    by_cases free : (m.world.heap.get t).waitsFor? = none
    · simp only [free, if_true]
      by_cases task : m.world.task? t = none
      · rw [wake_ended (by exact task)]
        exact skip (.inl task)
      · exact good.wake lawful ground idle (.refl _) (fun _ => rfl) task (.step ready free)
          fun _ => ⟨ready, rfl⟩
    · simp only [free, if_false]
      exact skip (.inr free)
  | react r f =>
    cases r with
    | tell g =>
      have reported := World.touches_report g f { m.world with ready := jobs }
      refine good.schedule lawful idle (popped.trans reported.turns) ?_
        (lawful.report ground inv current ready) (reported.current.trans current)
      intro t task _
      have spares : World.Spares t { m.world with ready := jobs } _ :=
        World.spares_report (g := g) (f := f) (by exact task)
      exact ⟨spares.status, spares.origin⟩
    | wake t =>
      by_cases waits : (m.world.heap.get t).waitsFor? = some f
      · simp only [waits, if_true]
        rcases outcome?_eq { m with world := { m.world with ready := jobs } } f with
          ⟨o, v, yields, asked⟩ | ⟨waiting, asked⟩
        · simp only [asked]
          obtain ⟨v, yields', rfl⟩ := yields_popped yields
          by_cases task : m.world.task? t = none
          · rw [wake_ended ((World.Spares.ofGet (get_yields yields' t)).task?.trans task)]
            have stay := skip (.inl task)
            have inv' : P.inv { v with ready := jobs } := by
              cases yields' with
              | done | failed => exact (stay.idle idle).1
              | cancelled => exact lawful.failure (stay.idle idle).1
            refine good.schedule lawful idle ((turns_yields yields').trans (.ofHeapEq rfl rfl rfl))
              (fun s _ _ => .ofGet (get_yields yields' s)) inv' ?_
            cases yields' <;> exact current
          · refine good.wake lawful ground idle (turns_yields yields') (get_yields yields') task
              (.react ready waits yields') fun none => ?_
            simp [none] at waits
        · simp only [asked]
          exact skip (.inr (.inr waiting))
      · simp only [waits, if_false]
        exact skip (.inr (.inl waits))

/-- A machine whose tasks keep to the protocol stays so. -/
theorem Good.step {m n : Machine} (good : P.Good m)
    (ground : m.focus = none → P.ground m.world) (observed : P.conduct.Observed m)
    (next : m.step P.body = some n) : P.Good n := by
  unfold Machine.step at next
  split at next
  · next x focus => exact Option.some.inj next ▸ good.advance lawful observed focus
  · next focus =>
    split at next
    · simp at next
    · next ready => exact Option.some.inj next ▸ good.carryOut lawful (ground focus) focus ready

theorem Good.visit {m : Machine} (good : P.Good m) (ground : P.ground m.world) (idle : m.focus = none)
    (r : Routine Value) : P.Good (m.visit r) where
  idle := by simp [Machine.visit]
  owner := by
    rintro _ ⟨⟩
    exact (good.idle idle).2
  runs := by rintro _ t ⟨⟩ ⟨⟩
  safe := by
    rintro _ ⟨⟩
    obtain ⟨inv, current⟩ := good.idle idle
    exact ⟨_, lawful.visit r ground inv current, fun o v _ _ ends result => result ends⟩
  live := good.live
  asleep := good.asleep
  unborn t task apart _ := good.unborn t task apart (by simp [idle])

/-- Along every run, all tasks keep to the protocol. -/
theorem good_run {start m : Machine} (good : P.Good start)
    (ground : ∀ {m}, Machine.Run P.body P.conduct start m → m.focus = none → P.ground m.world)
    (run : Machine.Run P.body P.conduct start m) : P.Good m := by
  induction run with
  | start => exact good
  | step run observed next ih => exact ih.step lawful (ground run) observed next
  | visit run idle r ih => exact ih.visit lawful (ground run idle) idle r

end

/-- A machine that has not begun to run anything keeps to every protocol whose invariant holds. -/
theorem good_fresh {m : Machine} (focus : m.focus = none) (waiting : m.waiting = [])
    (inv : P.inv m.world) (current : m.world.current = none)
    (tasks : ∀ t, m.world.task? t = none) : P.Good m where
  idle _ := ⟨inv, current⟩
  owner := by simp [focus]
  runs := by simp [focus]
  safe := by simp [focus]
  live := by simp [waiting]
  asleep := by simp [waiting]
  unborn t task := absurd (tasks t) task

end AsyncImport.Protocol
