import AsyncImport.Proofs.Calling
import AsyncImport.Proofs.Filing
import AsyncImport.Proofs.Settling

/-!
# Operating a loader

A host may carry out any operation of a manager and its loader at any moment, and its functions may
do the same while they are called. All that is expected of it is that it leaves the store and the
scheduler's bookkeeping to the library.
-/

namespace AsyncImport

namespace Machine

theorem calm_passed {w v : World} (calm : Calm w) {t : Ref .future}
    (spares : ∀ s, s ≠ t → World.Spares s w v)
    (own : ∀ {a f c}, (v.heap.get t).status = .waiting → (v.heap.get t).origin = .task a f c →
      c = false) : Calm v := by
  intro s a f c waiting origin
  by_cases same : s = t
  · subst same
    exact own waiting origin
  · have spares := spares s same
    exact calm (spares.status.symm.trans waiting) (spares.origin.symm.trans origin)

end Machine

namespace Site

open Edit Change Protocol

section

variable (S : Site)

def Suspends (w : World) : Activity → Prop
  | .host n _ => w.MayWait n
  | .invoke _ _ | .produce _ _ | .require _ _ | .compileStage _ _ | .buildNow _ _ | .link _ _ => False
  | _ => True

inductive Operates (w : World) : World → Prop
  | outside {v : World} (is : S.Outside w v) : Operates w v
  | load (name parent : Value) : Operates w ((Loader.load S.loader name parent).after w).2
  | fetch (name parent : Value) : Operates w ((Loader.fetch S.loader name parent).after w).2
  | register (name deps factory : Value) :
      Operates w ((Loader.register S.loader name deps factory).after w).2
  | declare (name deps factory : Value) :
      Operates w ((Manager.register S.manager name deps factory).after w).2
  | release (name : Value) : Operates w ((Loader.loadPending S.loader name).after w).2
  /-- A draft that is loaded is taken out to be compiled. -/
  | take {name : Value} (loaded : (Loader.isIn S.loader .loaded name).run w = (.ok true, w)) :
      Operates w ((Loader.remove S.loader name).after w).2

structure Uses (a : Option Activity) (w : World) (b : Activity) : Prop where
  hosted : Hosted a →
    (S.Public b ∨ S.Plain b) ∨ (∃ f args, b = .invoke f args) ∨ ∃ x, b = .awaitValue x
  /-- What does not wait calls nothing that may. -/
  atOnce : w.AtOnce a → ¬ Suspends w b
  permitted : ∀ f args, b = .invoke f args ∨ b = .produce f args → S.Permitted w f args
  awaits : ∀ x, b = .awaitValue x → S.Awaited w x

/-- What is expected of a host. -/
def usage : Conduct where
  writes a w v := Hosted a → S.Operates w v
  calls := S.Uses
  pauses a w := ¬ w.AtOnce a
  awaits a w _ := ¬ w.AtOnce a
  ends _ _ _ := True

structure Running (w : World) : Prop where
  booked : S.Booked w
  runs : ∀ t, w.current = some t → w.Runs t

structure Unsettled (w : World) (t : Ref .future) : Prop where
  loading : ∀ {s work markLoaded report},
    (w.heap.get t).activity? = some (.settle S.loader (.str s) work markLoaded report) →
    S.Loading w s t
  entries : ∀ e ∈ S.stored w, ¬ e.Ends t

def Held (w : World) : Prop := ∀ t, w.current = some t → S.Unsettled w t

def Admitted (w : World) (b : Activity) : Prop :=
  (S.Public b ∨ S.Plain b) ∨
    (∃ f args, (b = .invoke f args ∨ b = .produce f args) ∧ S.Permitted w f args) ∨
    ∃ x, b = .awaitValue x ∧ S.Awaited w x

structure Carries (w v : World) : Prop where
  running : S.Running v
  endures : w.Endures v
  current : v.current = w.current
  lets : ∀ t, w.current = some t → S.Lets t w v
  held : S.Held w → S.Held v

def operation (host : Host) : Protocol where
  body := host.meaning
  conduct := S.usage
  ground _ := True
  inv := S.Booked
  lasts := World.Endures
  rely t w v := S.Stands w → S.Stands v ∧ S.Lets t w v
  born t w := S.Stands w ∧ S.Unsettled w t
  pre _ b w := S.Running w ∧ S.Admitted w b ∧ (Suspends w b → S.Held w)
  post _ w _ v := S.Carries w v
  move _ w v := S.Running w ∧ S.Refiles w v

end

variable {S : Site} {u w v : World} {host : Host} {α β : Type} {a : Option Activity}

/-! ## What the running task keeps -/

theorem Lets.ofStore (store : v.heap.get S.store = w.heap.get S.store) (t : Ref .future) :
    S.Lets t w v where
  loading {s} := by
    unfold Loading Site.record?
    rw [store]
  entries e mem _ := by rwa [stored, store] at mem

theorem Unsettled.lets {t : Ref .future} (unsettled : S.Unsettled w t) (lets : S.Lets t w v)
    (activity : (v.heap.get t).activity? = (w.heap.get t).activity?) : S.Unsettled v t where
  loading is := lets.loading.mpr (unsettled.loading (activity.symm.trans is))
  entries e mem ends := unsettled.entries e (lets.entries e mem ends) ends

theorem carries_of (running : S.Running w) (later : S.Running v) (endures : w.Endures v)
    (current : v.current = w.current) (lets : ∀ t, w.current = some t → S.Lets t w v) :
    S.Carries w v where
  running := later
  endures := endures
  current := current
  lets := lets
  held held t own := by
    have own := current.symm.trans own
    have live := World.task?_live (running.runs t own).task?
    exact (held t own).lets (lets t own) (endures.futures t live).activity

namespace Carries

theorem refl (running : S.Running w) : S.Carries w w :=
  carries_of running running (.refl w) rfl fun t _ => .refl t w

theorem trans (first : S.Carries u w) (next : S.Carries w v) : S.Carries u v where
  running := next.running
  endures := first.endures.trans next.endures
  current := next.current.trans first.current
  lets t own := (first.lets t own).trans (next.lets t (first.current.trans own))
  held held := next.held (first.held held)

end Carries

theorem Refiles.running (refiles : S.Refiles w v) (running : S.Running w) : S.Running v where
  booked := running.booked.refiled refiles
  runs t own :=
    have runs := running.runs t (refiles.current.symm.trans own)
    runs.ofSpares (refiles.spares t runs.task?)

theorem Refiles.fair (refiles : S.Refiles w v) (running : S.Running w) :
    (S.operation host).Fair w v where
  evolves := refiles.endures
  current := refiles.current
  spares := refiles.spares
  rely t other task _ := ⟨refiles.stands, refiles.lets (World.task?_live task) other⟩
  born t none task := by
    obtain ⟨a, task'⟩ := Option.ne_none_iff_exists'.mp task
    obtain ⟨origin, -, loading⟩ := refiles.begun none task'
    have activity : (v.heap.get t).activity? = some a := by simp [Future.activity?, origin]
    refine ⟨⟨refiles.stands, fun is => ?_, fun e mem ends => ?_⟩, by simp [Future.waitsFor?, origin]⟩
    · exact loading (Option.some.inj (activity.symm.trans is))
    · obtain ⟨label, before⟩ := ends
      obtain ⟨es, journals, fresh⟩ := refiles.journal
      rw [journals.stored] at mem
      have known {u : World} (replaces : ∃ t, S.Replaces u e t) : S.Replaces u e t := by
        obtain ⟨s, replaces⟩ := replaces
        exact Storing.Ends.unique ⟨label, before⟩ replaces.ends ▸ replaces
      rcases List.mem_append.mp mem with old | new
      · rcases running.booked.journal e old with none | ⟨s, replaces, -⟩
        · rw [before] at none
          cases none
        · obtain ⟨-, -, _, _, _, _, -, settles⟩ := known ⟨s, replaces⟩
          exact task (refiles.endures.task?_none (live_of_activity settles) none)
      · rcases fresh e new with none | ⟨s, own, replaces⟩
        · rw [before] at none
          cases none
        · obtain rfl := Storing.Ends.unique ⟨label, before⟩ replaces.ends
          exact (running.runs t own).task? none

theorem Refiles.steps (refiles : S.Refiles w v) (running : S.Running w)
    (lets : ∀ t, w.heap.Live t → S.Lets t w v) :
    (S.Running w ∧ S.Refiles w v) ∧ (S.operation host).Fair w v ∧ S.Carries w v :=
  ⟨⟨running, refiles⟩, refiles.fair running, carries_of running (refiles.running running)
    refiles.endures refiles.current fun t own =>
      lets t (World.task?_live (running.runs t own).task?)⟩

theorem Outside.steps (outside : S.Outside w v) (running : S.Running w) :
    (S.Running w ∧ S.Refiles w v) ∧ (S.operation host).Fair w v ∧ S.Carries w v :=
  outside.refiles.steps running fun t _ => outside.lets t

theorem Files.steps (files : S.Files w v) (running : S.Running w) :
    (S.Running w ∧ S.Refiles w v) ∧ (S.operation host).Fair w v ∧ S.Carries w v :=
  files.refiles.steps running fun _ live => files.lets live

theorem filed_steps {e : Edit α} {Q : α → World → Prop} (does : S.filing.Does e w Q)
    (running : S.Running w) : (S.Running w ∧ S.Refiles w (e.after w).2) ∧
      (S.operation host).Fair w (e.after w).2 ∧ S.Carries w (e.after w).2 :=
  (does.after running.booked).1.1.steps running

/-! ## Passing the turn -/

theorem Booked.passed (booked : S.Booked w) (passes : w.Passes v) (calm : Machine.Calm v)
    (undone : ∀ {s t}, S.Loading w s t → v.task? t ≠ none)
    (leaves : ∀ {t s work markLoaded report}, w.current = some t → v.current ≠ some t →
      v.task? t = some (.settle S.loader (.str s) work markLoaded report) → S.Loading w s t)
    (succeeds : ∀ {t e}, w.current = some t → e ∈ S.stored w → e.Ends t →
      v.current = some t ∨ ∃ x, (v.heap.get t).status = .done x) : S.Booked v := by
  have same : S.Same w v := .ofTurns booked.stands passes.turns
  have endures := passes.turns.evolves.endures
  refine
    { stands := booked.stands.mono passes.turns.evolves
      calm := calm
      ours := fun task => (booked.ours (passes.task task)).mono endures
      records := fun {k r} found => ?_
      settling := fun {t s work m r} task => ?_
      journal := fun e mem => ?_ }
  · rw [same.record?] at found
    obtain ⟨s, is, filed⟩ := booked.records found
    refine ⟨s, is, ?_⟩
    cases filed with
    | @loading label work t _ _ task =>
      have waiting : (v.heap.get t).status = .waiting := by
        obtain ⟨b, later⟩ := Option.ne_none_iff_exists'.mp (undone ⟨label, is ▸ found⟩)
        exact (World.task?_eq_some.mp later).1
      exact .loading (endures.task?_some task waiting)
    | pending => exact .pending
    | loaded => exact .loaded
  · by_cases own : v.current = some t
    · exact .inr own
    · refine .inl (same.loading.mpr ?_)
      rcases booked.settling (passes.task task) with loading | before
      · exact loading
      · exact leaves before own task
  · rw [stored, same.store] at mem
    refine (booked.journal e mem).imp_right fun replaced => ?_
    obtain ⟨t, replaces, success⟩ := replaced
    refine ⟨t, replaces.mono endures, ?_⟩
    rcases success with own | ⟨x, done⟩
    · exact succeeds own mem replaces.ends
    · exact .inr ⟨x, done_endures endures done⟩

section

variable {t : Ref .future} (running : S.Running w) (own : w.current = some t)
include running own

theorem Running.left (held : S.Held w) (passes : w.Passes v) (calm : Machine.Calm v)
    (stays : ∀ s, w.task? s ≠ none → v.task? s ≠ none) : S.Booked v := by
  refine running.booked.passed passes calm (fun loading => ?_) (fun {s r x m p} before _ task => ?_)
    fun {s e} before mem ends => ?_
  · obtain ⟨_, _, _, task⟩ := running.booked.loading loading
    exact stays _ (by simp [task])
  · obtain rfl := Option.some.inj (own.symm.trans before)
    have activity := activity_of_task task
    rw [(passes.follows t).activity] at activity
    exact (held t own).loading activity
  · exact absurd ends ((held s before).entries e mem)

theorem Running.paused (held : S.Held w) : S.Booked (w.paused t) :=
  running.left own held (World.passes_ofHeapEq rfl rfl rfl) running.booked.calm fun _ task => task

theorem Running.awaiting {f : Ref .future} (held : S.Held w)
    (waiting : (w.heap.get f).status = .waiting) (ne : t ≠ f) : S.Booked (w.awaiting t f) := by
  have runs := running.runs t own
  obtain ⟨a, origin⟩ := runs.2
  have live := World.task?_live runs.task?
  have spares (s : Ref .future) (other : s ≠ t) := World.spares_awaiting waiting runs ne other
  refine running.left own held (World.passes_awaiting waiting runs ne)
    (Machine.calm_passed running.booked.calm spares fun _ is => ?_) fun s task => ?_
  · rw [World.get_awaiting waiting live origin ne] at is
    cases is
    rfl
  · by_cases same : s = t
    · subst same
      obtain ⟨b, task⟩ := Option.ne_none_iff_exists'.mp task
      simp [(World.turns_awaiting waiting runs ne).evolves.task?_some task
        (World.status_awaiting waiting runs ne)]
    · rwa [(spares s same).task?]

theorem Running.ended {o : Outcome} (settled : ∀ s, ¬ S.Loading w s t)
    (succeeds : ∀ e ∈ S.stored w, e.Ends t → ∃ x, o = .ok x) : S.Booked (w.ended t o) := by
  have task := (running.runs t own).task?
  have gone := World.task?_ended o task
  have others (s : Ref .future) (other : s ≠ t) : World.Spares s w (w.ended t o) :=
    .ofGet (World.get_ended_ne w o other)
  refine running.booked.passed (World.passes_ended w t o)
    (Machine.calm_passed running.booked.calm others fun waiting _ => ?_) (fun {s r} loading => ?_)
    (fun {s r x m p} before _ task => ?_) fun {s e} before mem ends => .inr ?_
  · rw [World.status_ended o task] at waiting
    exact absurd waiting (World.endStatus_ne_waiting w t o)
  · obtain ⟨_, _, _, known⟩ := running.booked.loading loading
    have other : r ≠ t := fun same => settled s (same ▸ loading)
    rw [(others r other).task?]
    simp [known]
  · obtain rfl := Option.some.inj (own.symm.trans before)
    rw [gone] at task
    cases task
  · obtain rfl := Option.some.inj (own.symm.trans before)
    obtain ⟨x, rfl⟩ := succeeds e mem ends
    obtain ⟨a, origin⟩ := (running.runs t own).2
    refine ⟨x, ?_⟩
    rw [World.status_ended _ task]
    simp [World.endStatus, origin]

end

section

variable (booked : S.Booked w) (idle : w.current = none)
include booked idle

/-- The turn passes while no task runs. -/
theorem Booked.scheduled (passes : w.Passes v)
    (spares : ∀ t, w.task? t ≠ none → v.current ≠ some t → World.Spares t w v)
    (goes : ∀ t, v.current = some t → w.task? t ≠ none → v.Runs t) : S.Booked v := by
  have stays (t : Ref .future) (task : w.task? t ≠ none) : v.task? t ≠ none := by
    by_cases own : v.current = some t
    · exact (goes t own task).task?
    · rwa [(spares t task own).task?]
  refine booked.passed passes (fun {t a f c} waiting origin => ?_) (fun loading => ?_)
    (fun before => ?_) fun before => ?_
  · have task : v.task? t ≠ none := by
      rw [World.task?_eq_some.mpr ⟨waiting, World.activity?_eq_some.mpr ⟨f, c, origin⟩⟩]
      simp
    by_cases own : v.current = some t
    · obtain ⟨-, b, is⟩ := goes t own (passes.undone task)
      rw [origin] at is
      cases is
      rfl
    · have spares := spares t (passes.undone task) own
      exact booked.calm (spares.status.symm.trans waiting) (spares.origin.symm.trans origin)
  · obtain ⟨_, _, _, task⟩ := booked.loading loading
    exact stays _ (by simp [task])
  all_goals
    rw [idle] at before
    cases before

theorem Booked.resumed {t : Ref .future} (jobs : List Job) (task : w.task? t ≠ none) :
    S.Running (w.resumed t jobs) where
  booked := by
    refine booked.scheduled idle (World.passes_resumed w t jobs) (fun s _ other => ?_) fun s is _ => ?_
    · exact .ofGet (World.get_resumed_ne w jobs fun same => other (by rw [same]; rfl))
    · obtain rfl := Option.some.inj is
      exact World.runs_resumed jobs task
  runs s is := by
    obtain rfl := Option.some.inj is
    exact World.runs_resumed jobs task

end

theorem carries_woken {t : Ref .future} {x : World} {o : Outcome} (running : S.Running w)
    (own : w.current = some t) (turns : w.Turns x) (task : x.task? t ≠ none)
    (later : (S.operation host).Later t x u) (booked : S.Booked u) (idle : u.current = none)
    (wakes : Wakes t u o v) : S.Carries w v := by
  have spares : World.Spares t x u := later.spares
  have task : u.task? t ≠ none := by rwa [spares.task?]
  have stands := running.booked.stands
  have before : S.Lets t w x := .ofStore (Same.ofTurns stands turns).store t
  have lets : S.Lets t w u := before.trans (later.rely (stands.mono turns.evolves)).2
  have endures : w.Endures u := turns.evolves.endures.trans later.evolves
  have resumed {y : World} {jobs : List Job} (still : u.Still y) : S.Carries w (y.resumed t jobs) := by
    have outside := outside_still booked.stands still
    have task : y.task? t ≠ none := by rwa [(outside.spares t task).task?]
    have last := World.turns_resumed y t jobs
    refine carries_of running (((booked.refiled outside.refiles).resumed (still.current.trans idle) jobs
      task)) ((endures.trans outside.endures).trans last.evolves.endures) own.symm fun s same => ?_
    obtain rfl := Option.some.inj (own.symm.trans same)
    exact (lets.trans (outside.lets t)).trans (.ofStore (Same.ofTurns outside.stands last).store t)
  cases wakes with
  | step => exact resumed (.refl u)
  | react _ _ yields =>
    cases yields with
    | done | failed => exact resumed (.refl u)
    | cancelled => exact resumed (World.still_failure u _)
  | cancelled _ flagged => exact absurd flagged (Machine.Calm.not_flagged booked.calm task)

/-! ## The course -/

def operating (S : Site) (host : Host) : (S.operation host).Course where
  fine := S.Running
  keeps := S.Carries
  free := S.Held
  refl := .refl
  trans := Carries.trans
  sound := Carries.running
  active running own := (running.runs _ own).active
  mild := World.Spares.mild
  failure {w f} running _ :=
    have outside : S.Outside w (w.alloc .failure f) :=
      outside_still running.booked.stands (World.still_failure w f)
    have steps : _ ∧ (S.operation host).Fair _ _ ∧ S.Carries _ _ := outside.steps running
    steps.2.2
  tame running tame _ := (outside_slight running.booked.stands tame.toSlight).steps running
  paused running held own := running.paused own held
  awaiting running held own waiting ne := running.awaiting own held waiting ne
  woken running _ own turns task later _ booked idle wakes :=
    carries_woken running own turns task later booked idle wakes

end Site
end AsyncImport
