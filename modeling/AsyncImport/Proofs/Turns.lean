import AsyncImport.Proofs.Protocol

/-!
# Passing the turn

What the scheduler does to a world is the same under every protocol: it ends futures, queues and
takes jobs, and notes what a task waits for. All of it is covered by `World.Turns`, and each of it
spares all tasks but the one it is about.
-/

namespace AsyncImport.World

variable {w u v : World} {k : Kind}

theorem task?_eq_some {t : Ref .future} {a : Activity} :
    w.task? t = some a ↔
      (w.heap.get t).status = .waiting ∧ (w.heap.get t).activity? = some a := by
  unfold task?
  split <;> simp_all

theorem activity?_eq_some {c : Future} {a : Activity} :
    c.activity? = some a ↔ ∃ f b, c.origin = .task a f b := by
  unfold Future.activity?
  split
  · next h => simp [h]
  · next h =>
    simp only [reduceCtorEq, false_iff]
    rintro ⟨f, b, e⟩
    exact h a f b e

theorem task?_live {t : Ref .future} (task : w.task? t ≠ none) : w.heap.Live t := by
  by_contra dead
  apply task
  unfold task? Future.activity?
  rw [Heap.get_not_live dead]
  rfl

namespace Endures

/-- A future that is no task, or is done, never becomes a task that is not. -/
theorem task?_none (endures : w.Endures v) {t : Ref .future} (live : w.heap.Live t)
    (none : w.task? t = none) : v.task? t = Option.none := by
  have follows := endures.futures t live
  unfold task? at none ⊢
  rw [follows.activity]
  by_cases waiting : (w.heap.get t).status = .waiting
  · rw [if_pos waiting] at none
    simp [none]
  · rw [if_neg (by rwa [follows.status waiting])]

theorem task?_some (endures : w.Endures v) {t : Ref .future} {a : Activity}
    (task : w.task? t = some a) (waiting : (v.heap.get t).status = .waiting) : v.task? t = some a := by
  have follows := endures.futures t (task?_live (by simp [task]))
  rw [task?_eq_some] at task ⊢
  exact ⟨waiting, follows.activity.trans task.2⟩

end Endures

theorem Evolves.task?_none (evolves : w.Evolves v) {t : Ref .future} (live : w.heap.Live t)
    (none : w.task? t = none) : v.task? t = Option.none := evolves.endures.task?_none live none

theorem Evolves.task?_some (evolves : w.Evolves v) {t : Ref .future} {a : Activity}
    (task : w.task? t = some a) (waiting : (v.heap.get t).status = .waiting) : v.task? t = some a :=
  evolves.endures.task?_some task waiting

theorem Spares.refl (t : Ref .future) (w : World) : Spares t w w := ⟨rfl, rfl⟩

theorem Spares.trans {t : Ref .future} (first : Spares t u w) (next : Spares t w v) : Spares t u v :=
  ⟨next.status.trans first.status, next.origin.trans first.origin⟩

theorem Spares.ofGet {t : Ref .future} (same : v.heap.get t = w.heap.get t) : Spares t w v := by
  constructor <;> rw [same]

theorem Spares.task? {t : Ref .future} (spares : Spares t w v) : v.task? t = w.task? t := by
  unfold World.task? Future.activity?
  rw [spares.status, spares.origin]

theorem Spares.waitsFor? {t : Ref .future} (spares : Spares t w v) :
    (v.heap.get t).waitsFor? = (w.heap.get t).waitsFor? := by
  unfold Future.waitsFor?
  rw [spares.origin]

namespace Turns

theorem refl (w : World) : w.Turns w := ⟨.refl w, fun _ _ _ => rfl, fun _ h => h, rfl⟩

theorem trans (first : u.Turns w) (next : w.Turns v) : u.Turns v where
  evolves := first.evolves.trans next.evolves
  rests r ne live := (next.rests r ne (first.evolves.live live)).trans (first.rests r ne live)
  tasks t none := next.tasks t (first.tasks t none)
  emitted := next.emitted.trans first.emitted

theorem ofHeapEq (heap : v.heap = w.heap) (functions : v.functions = w.functions)
    (emitted : v.emitted = w.emitted) : w.Turns v where
  evolves := .ofHeapEq heap functions
  rests _ _ _ := by rw [heap]
  tasks t none := by unfold task? at none ⊢; rwa [heap]
  emitted := emitted

theorem setFuture (w : World) (f : Ref .future) (c : Future)
    (follows : Future.Follows (w.heap.get f) c) : w.Turns (w.set f c) where
  evolves := .set w f c follows
  rests r ne _ := get_set_kind _ ne
  tasks t none := by
    by_cases live : w.heap.Live t
    · exact (Evolves.set w f c follows).task?_none live none
    · unfold task?
      rw [Heap.get_not_live (fun h => live (live_set.mp h))]
      rfl
  emitted := rfl

theorem alloc (w : World) (k : Kind) (c : Cell k) (ne : k ≠ .future) : w.Turns (w.alloc k c) where
  evolves := .alloc w k c
  rests {l} r _ live := by
    by_cases e : l = k
    · subst e
      exact Heap.get_alloc_live _ _ live
    · exact get_alloc_kind _ e
  tasks t none := by
    unfold task? at none ⊢
    rwa [get_alloc_kind c (Ne.symm ne)]
  emitted := rfl

theorem failure (w : World) (f : Fault) : w.Turns (w.alloc .failure f) := alloc w .failure f (by decide)

end Turns

/-! ## The single turns -/

theorem turns_paused (w : World) (t : Ref .future) : w.Turns (w.paused t) := .ofHeapEq rfl rfl rfl

theorem follows_goOn (c : Future) : Future.Follows c c.goOn := by
  unfold Future.goOn
  split
  · next h => exact ⟨fun _ => rfl, by simp [Future.activity?, h], by simp [Future.members?, h]⟩
  · exact .refl c

theorem goOn_eq {c : Future} {a : Activity} {f : Option (Ref .future)} {b : Bool}
    (origin : c.origin = .task a f b) : c.goOn = { c with origin := .task a none false } := by
  simp [Future.goOn, origin]

theorem turns_resumed (w : World) (t : Ref .future) (jobs : List Job) : w.Turns (w.resumed t jobs) :=
  (Turns.setFuture w t _ (follows_goOn _)).trans (.ofHeapEq rfl rfl rfl)

theorem get_resumed_ne (w : World) {t f : Ref .future} (jobs : List Job) (ne : f ≠ t) :
    (w.resumed t jobs).heap.get f = w.heap.get f := get_set_ne _ ne

theorem status_resumed (w : World) (t f : Ref .future) (jobs : List Job) :
    ((w.resumed t jobs).heap.get f).status = (w.heap.get f).status := by
  by_cases same : f = t
  · subst same
    by_cases live : w.heap.Live f
    · show ((w.set f (w.heap.get f).goOn).heap.get f).status = _
      rw [get_set _ _ _ live, if_pos rfl]
      unfold Future.goOn
      split <;> rfl
    · have dead : ¬ (w.resumed f jobs).heap.Live f := fun lives => live (live_set.mp lives)
      rw [Heap.get_not_live live, Heap.get_not_live dead]
  · rw [get_resumed_ne w jobs same]

theorem Runs.task? {t : Ref .future} (runs : w.Runs t) : w.task? t ≠ none := by
  obtain ⟨waiting, a, origin⟩ := runs
  simp [World.task?, waiting, Future.activity?, origin]

theorem Runs.ofSpares {t : Ref .future} (runs : w.Runs t) (spares : Spares t w v) : v.Runs t := by
  obtain ⟨waiting, a, origin⟩ := runs
  exact ⟨spares.status.trans waiting, a, spares.origin.trans origin⟩

theorem runs_resumed {t : Ref .future} (jobs : List Job) (task : w.task? t ≠ none) :
    (w.resumed t jobs).Runs t := by
  have live := task?_live task
  obtain ⟨a, task⟩ := Option.ne_none_iff_exists'.mp task
  obtain ⟨waiting, activity⟩ := task?_eq_some.mp task
  obtain ⟨f, b, origin⟩ := activity?_eq_some.mp activity
  have get : (w.resumed t jobs).heap.get t = { w.heap.get t with origin := .task a none false } := by
    show (w.set t (w.heap.get t).goOn).heap.get t = _
    rw [get_set _ _ _ live, if_pos rfl, goOn_eq origin]
  exact ⟨by rw [get]; exact waiting, a, by rw [get]⟩

theorem awaiting_eq {t f : Ref .future} {a : Activity} (waiting : (w.heap.get f).status = .waiting)
    (origin : (w.heap.get t).origin = .task a none false) (ne : t ≠ f) :
    w.awaiting t f =
      { (w.set f { w.heap.get f with reactions := (w.heap.get f).reactions ++ [.wake t] }).set t
          { w.heap.get t with origin := .task a (some f) false } with current := none } := by
  unfold awaiting Edit.waitFor
  have undone : (w.heap.get f).status.isDone = false := by simp [waiting, Status.isDone]
  simp only [Edit.run_bind, Edit.run_attach, undone]
  have kept : ((w.set f { w.heap.get f with
      reactions := (w.heap.get f).reactions ++ [.wake t] }).heap.get t) = w.heap.get t :=
    get_set_ne _ ne
  simp only [World.set] at kept ⊢
  simp [kept, origin, World.set]

theorem turns_awaiting {t f : Ref .future} (waiting : (w.heap.get f).status = .waiting)
    (runs : w.Runs t) (ne : t ≠ f) : w.Turns (w.awaiting t f) := by
  obtain ⟨-, a, origin⟩ := runs
  rw [awaiting_eq waiting origin ne]
  have first := Turns.setFuture w f
    { w.heap.get f with reactions := (w.heap.get f).reactions ++ [.wake t] } ⟨fun _ => rfl, rfl, rfl⟩
  refine (first.trans (.setFuture _ t _ ?_)).trans (.ofHeapEq rfl rfl rfl)
  rw [get_set_ne _ ne]
  exact ⟨fun _ => rfl, by simp [Future.activity?, origin], by simp [Future.members?, origin]⟩

theorem spares_awaiting {t f s : Ref .future} (waiting : (w.heap.get f).status = .waiting)
    (runs : w.Runs t) (ne : t ≠ f) (other : s ≠ t) : Spares s w (w.awaiting t f) := by
  obtain ⟨-, a, origin⟩ := runs
  rw [awaiting_eq waiting origin ne]
  by_cases live : w.heap.Live f
  · by_cases e : s = f
    · subst e
      constructor <;> simp [get_set_ne _ other, get_set _ _ _ live]
    · exact .ofGet (by simp [get_set_ne _ other, get_set_ne _ e])
  · refine .ofGet ?_
    show ((w.set f _).set t _).heap.get s = _
    rw [get_set_ne _ other]
    by_cases e : s = f
    · subst e
      exact Heap.set_not_live _ live
    · exact get_set_ne _ e

theorem get_awaiting {t f : Ref .future} {a : Activity} (waiting : (w.heap.get f).status = .waiting)
    (live : w.heap.Live t) (origin : (w.heap.get t).origin = .task a none false) (ne : t ≠ f) :
    (w.awaiting t f).heap.get t = { w.heap.get t with origin := .task a (some f) false } := by
  rw [awaiting_eq waiting origin ne]
  show ((w.set f _).set t _).heap.get t = _
  rw [get_set _ _ _ (live_set.mpr live), if_pos rfl]

theorem status_awaiting {t f : Ref .future} (waiting : (w.heap.get f).status = .waiting)
    (runs : w.Runs t) (ne : t ≠ f) : ((w.awaiting t f).heap.get t).status = .waiting := by
  have live := task?_live runs.task?
  obtain ⟨undone, a, origin⟩ := runs
  rw [get_awaiting waiting live origin ne]
  exact undone

theorem waitsFor?_awaiting {t f : Ref .future} (waiting : (w.heap.get f).status = .waiting)
    (runs : w.Runs t) (ne : t ≠ f) : ((w.awaiting t f).heap.get t).waitsFor? = some f := by
  have live := task?_live runs.task?
  obtain ⟨undone, a, origin⟩ := runs
  rw [get_awaiting waiting live origin ne]
  rfl

theorem follows_ended {c : Future} (waiting : c.status = .waiting) (s : Status) :
    Future.Follows c { c with status := s, reactions := [] } :=
  ⟨fun h => absurd waiting h, rfl, rfl⟩

theorem turns_completed (w : World) (f : Ref .future) (s : Status) :
    w.Turns (Edit.complete f s w).2 := by
  rw [Edit.run_complete]
  by_cases done : (w.heap.get f).status.isDone
  · simp only [done, if_true]
    exact .refl w
  · simp only [done]
    have waiting : (w.heap.get f).status = .waiting := by simpa [Status.isDone] using done
    exact (Turns.setFuture w f _ (follows_ended waiting s)).trans (.ofHeapEq rfl rfl rfl)

theorem get_completed_ne (w : World) {f g : Ref .future} (s : Status) (ne : g ≠ f) :
    (Edit.complete f s w).2.heap.get g = w.heap.get g := by
  rw [Edit.run_complete]
  by_cases done : (w.heap.get f).status.isDone
  · simp [done]
  · simp only [done]
    exact get_set_ne _ ne

theorem status_completed (w : World) (f g : Ref .future) (s : Status) :
    ((Edit.complete f s w).2.heap.get g).status = (w.heap.get g).status ∨
      ((Edit.complete f s w).2.heap.get g).status = s := by
  by_cases same : g = f
  · subst same
    rw [Edit.run_complete]
    by_cases done : (w.heap.get g).status.isDone
    · exact .inl (by rw [if_pos done])
    rw [if_neg done]
    by_cases live : w.heap.Live g
    · right
      show (((_ : World).set g _).heap.get g).status = s
      rw [get_set _ _ _ live, if_pos rfl]
    · exact .inl (congrArg Future.status (Heap.set_not_live _ live))
  · exact .inl (congrArg Future.status (get_completed_ne w s same))

theorem current_completed (w : World) (f : Ref .future) (s : Status) :
    (Edit.complete f s w).2.current = w.current := by
  rw [Edit.run_complete]
  split <;> rfl

theorem live_completed {f g : Ref .future} {s : Status} :
    (Edit.complete f s w).2.heap.Live g ↔ w.heap.Live g := by
  rw [Edit.run_complete]
  split
  · exact .rfl
  · exact live_set

theorem task?_completed {f : Ref .future} {s : Status} (done : s ≠ .waiting) (w : World) :
    (Edit.complete f s w).2.task? f = none := by
  by_cases task : w.task? f = none
  · exact (turns_completed w f s).tasks f task
  · obtain ⟨a, task⟩ := Option.ne_none_iff_exists'.mp task
    obtain ⟨waiting, -⟩ := task?_eq_some.mp task
    have undone : ¬ (w.heap.get f).status.isDone = true := by simp [waiting, Status.isDone]
    rw [Edit.run_complete, if_neg undone]
    show (if ((w.set f _).heap.get f).status = .waiting then ((w.set f _).heap.get f).activity?
      else none) = none
    rw [get_set _ _ _ (task?_live (by simp [task])), if_pos rfl, if_neg done]

def endStatus (w : World) (t : Ref .future) (o : Outcome) : Status :=
  match o, (w.heap.get t).origin with
  | .ok _, .task _ _ true => .cancelled
  | .ok v, _ => .done v
  | .error e, _ => if (w.heap.get e).ordinary then .failed e else .cancelled

theorem ended_eq (w : World) (t : Ref .future) (o : Outcome) :
    w.ended t o = (Edit.complete t (w.endStatus t o) { w with current := none }).2 := by
  unfold ended Edit.conclude endStatus
  rcases o with e | v
  · simp [Edit.run_bind]
  · rcases h : (w.heap.get t).origin with _ | ⟨a, f, _ | _⟩ | _ <;> simp [Edit.run_bind, h]

theorem turns_ended (w : World) (t : Ref .future) (o : Outcome) : w.Turns (w.ended t o) := by
  rw [ended_eq]
  have aside : w.Turns { w with current := none } := .ofHeapEq rfl rfl rfl
  exact aside.trans (turns_completed _ t _)

theorem get_ended_ne (w : World) {t s : Ref .future} (o : Outcome) (ne : s ≠ t) :
    (w.ended t o).heap.get s = w.heap.get s := by
  rw [ended_eq]
  exact get_completed_ne _ _ ne

theorem current_ended (w : World) (t : Ref .future) (o : Outcome) : (w.ended t o).current = none := by
  rw [ended_eq]
  exact current_completed _ _ _

theorem endStatus_ne_waiting (w : World) (t : Ref .future) (o : Outcome) :
    w.endStatus t o ≠ .waiting := by
  unfold endStatus
  split
  · simp
  · simp
  · split <;> simp

theorem status_ended {t : Ref .future} (o : Outcome) (task : w.task? t ≠ none) :
    ((w.ended t o).heap.get t).status = w.endStatus t o := by
  have live := task?_live task
  obtain ⟨a, task⟩ := Option.ne_none_iff_exists'.mp task
  have undone : (w.heap.get t).status.isDone = false := by
    simp [(task?_eq_some.mp task).1, Status.isDone]
  rw [ended_eq, Edit.run_complete]
  simp only [undone]
  show (((_ : World).set t _).heap.get t).status = _
  rw [get_set _ _ _ (by exact live), if_pos rfl]

theorem task?_ended {t : Ref .future} (o : Outcome) (task : w.task? t ≠ none) :
    (w.ended t o).task? t = none := by
  unfold task?
  rw [status_ended o task, if_neg (endStatus_ne_waiting w t o)]

/-! ## Reports to a group -/

structure Touches (f : Ref .future) (w v : World) : Prop where
  turns : w.Turns v
  current : v.current = w.current
  others : ∀ g : Ref .future, g ≠ f → v.heap.get g = w.heap.get g
  old : ∀ g : Ref .future, v.heap.Live g → w.heap.Live g

namespace Touches

variable {f : Ref .future}

theorem refl (w : World) : Touches f w w := ⟨.refl w, rfl, fun _ _ => rfl, fun _ live => live⟩

theorem trans (first : Touches f u w) (next : Touches f w v) : Touches f u v where
  turns := first.turns.trans next.turns
  current := next.current.trans first.current
  others g ne := (next.others g ne).trans (first.others g ne)
  old g live := first.old g (next.old g live)

theorem set (w : World) (c : Future) (follows : Future.Follows (w.heap.get f) c) :
    Touches f w (w.set f c) :=
  ⟨.setFuture w f c follows, rfl, fun _ ne => get_set_ne _ ne, fun _ live => live_set.mp live⟩

theorem complete (w : World) (s : Status) : Touches f w (Edit.complete f s w).2 :=
  ⟨turns_completed w f s, current_completed w f s, fun _ ne => get_completed_ne w s ne,
    fun _ live => live_completed.mp live⟩

theorem alloc (w : World) (k : Kind) (c : Cell k) (ne : k ≠ .future) : Touches f w (w.alloc k c) :=
  ⟨.alloc w k c ne, rfl, fun _ _ => get_alloc_kind c (Ne.symm ne),
    fun _ live => (live_alloc_kind (Ne.symm ne)).mp live⟩

end Touches

def results? (w : World) (fs : List (Ref .future)) : Option (List Value) :=
  fs.mapM fun (f : Ref .future) => (w.heap.get f).result?

theorem run_results (fs : List (Ref .future)) (w : World) :
    (Edit.results? fs).run w = (.ok (w.results? fs), w) := rfl

theorem report_none {g f : Ref .future} {w : World} (members : (w.heap.get g).members? = none) :
    (Edit.report g f w).2 = w := by
  unfold Edit.report
  cases origin : (w.heap.get g).origin with
  | group ms n c => simp [Future.members?, origin] at members
  | plain | task => simp [Edit.run_bind, origin]

theorem touches_follow (g f : Ref .future) (members : List (Ref .future)) (left : Nat)
    (cancelling : Bool) (w : World) : Touches g w (Edit.follow g f members left cancelling w).2 := by
  unfold Edit.follow
  cases status : (w.heap.get f).status with
  | waiting => simpa [Edit.run_bind, status] using Touches.refl w
  | failed e => simpa [Edit.run_bind, status] using Touches.complete w _
  | cancelled =>
    have made : Touches g w (w.alloc .failure .cancelled) := .alloc w .failure _ (by decide)
    simpa [Edit.run_bind, status] using made.trans (.complete _ _)
  | done x =>
    by_cases last : left = 0
    · cases cancelling with
      | false =>
        cases results : w.results? members with
        | none =>
          have made : Touches g w (w.alloc .failure (Refusal.plain .runtime).fault) :=
            .alloc w .failure _ (by decide)
          simpa [last, Edit.run_bind, status, run_results, results] using made.trans (.complete _ _)
        | some vs =>
          have made : Touches g w (w.alloc .list vs) := .alloc w .list _ (by decide)
          simpa [last, Edit.run_bind, status, run_results, results] using made.trans (.complete _ _)
      | true =>
        have made : Touches g w (w.alloc .failure .cancelled) := .alloc w .failure _ (by decide)
        simpa [last, Edit.run_bind, status] using made.trans (.complete _ _)
    · simpa [last, Edit.run_bind, status] using Touches.refl w

theorem touches_report (g f : Ref .future) (w : World) : Touches g w (Edit.report g f w).2 := by
  cases origin : (w.heap.get g).origin with
  | plain | task =>
    rw [report_none (by simp [Future.members?, origin])]
    exact .refl w
  | group members missing cancelling =>
    have counted : Touches g w (w.set g { w.heap.get g with
        origin := .group members (missing - 1) cancelling }) :=
      .set w _ ⟨fun _ => rfl, by simp [Future.activity?, origin], by simp [Future.members?, origin]⟩
    unfold Edit.report Edit.setGroup
    by_cases done : (w.heap.get g).status.isDone
    · simpa [Edit.run_bind, origin, done] using counted
    · simpa [Edit.run_bind, origin, done] using counted.trans (touches_follow ..)

theorem spares_report {g f t : Ref .future} {w : World} (task : w.task? t ≠ none) :
    Spares t w (Edit.report g f w).2 := by
  by_cases same : t = g
  · subst same
    obtain ⟨a, task⟩ := Option.ne_none_iff_exists'.mp task
    obtain ⟨_, _, origin⟩ := activity?_eq_some.mp (task?_eq_some.mp task).2
    rw [report_none (by simp [Future.members?, origin])]
    exact .refl t w
  · exact .ofGet ((touches_report g f w).others t same)

end AsyncImport.World
