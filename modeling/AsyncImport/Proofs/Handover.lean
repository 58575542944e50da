import AsyncImport.Proofs.Drawing

/-!
# Turns on a chart

Groups, reports and the passing of the turn touch futures and data only. They tell nothing new about
any name, but that a task which ends well has the result that it should have.
-/

namespace AsyncImport

structure World.Beside (w v : World) : Prop where
  straight : w.Straight v
  parts : ∀ {k : Kind} (r : Ref k), k = .store ∨ k = .loader ∨ k = .manager →
    v.heap.get r = w.heap.get r

namespace World.Beside

variable {u v w : World}

theorem refl (w : World) : w.Beside w := ⟨fun _ _ => rfl, fun _ _ => rfl⟩

theorem trans (first : u.Beside w) (next : w.Beside v) : u.Beside v where
  straight := first.straight.trans next.straight
  parts r part := (next.parts r part).trans (first.parts r part)

theorem ofHeapEq (heap : v.heap = w.heap) : w.Beside v :=
  ⟨fun _ _ => by rw [heap], fun _ _ => by rw [heap]⟩

theorem set {k : Kind} (w : World) (r : Ref k) (c : Cell k) (side : k = .future ∨ k = .coroutine) :
    w.Beside (w.set r c) where
  straight _ _ := World.get_set_kind c (by rcases side with rfl | rfl <;> decide)
  parts s part := World.get_set_kind c (by
    rcases side with rfl | rfl <;> rcases part with rfl | rfl | rfl <;> decide)

theorem alloc (w : World) (c : Future) : w.Beside (w.alloc .future c) where
  straight _ _ := World.get_alloc_kind _ (by decide)
  parts r part := World.get_alloc_kind (k := .future) c (by rintro rfl; simp at part)

theorem ofNear (near : w.Near v) : w.Beside v where
  straight := near.onlyStraight
  parts {k} r part := by
    have hard : k.isData = false := by rcases part with rfl | rfl | rfl <;> rfl
    unfold Heap.get
    rw [near.table k hard]

theorem same {S : Site} (beside : w.Beside v) : S.Same w v where
  store := beside.parts _ (.inl rfl)
  loader := beside.parts _ (.inr (.inl rfl))
  manager := beside.parts _ (.inr (.inr rfl))

end World.Beside

namespace Edit

variable {α β : Type}

def Apart (e : Edit α) : Prop := ∀ w : World, w.Beside (e w).2

theorem apart_pure (x : α) : Apart (pure x) := fun w => .refl w

theorem apart_throw (f : Fault) : Apart (throw f : Edit α) := fun w => .refl w

theorem apart_quiet (x : Quiet α) : Apart (liftM x : Edit α) := fun w => .ofNear (x.near w)

theorem apart_bind {x : Edit α} {f : α → Edit β} (first : Apart x) (next : ∀ a, Apart (f a)) :
    Apart (x >>= f) := by
  intro w
  have here := first w
  rw [run_bind]
  rcases ends : x w with ⟨e | a, v⟩ <;> rw [ends] at here
  · exact here
  · exact here.trans (next a v)

theorem apart_forM {xs : List α} {f : α → Edit PUnit} (each : ∀ x, Apart (f x)) :
    Apart (forM xs f) := by
  induction xs with
  | nil => exact apart_pure _
  | cons x xs ih =>
    rw [List.forM_cons]
    exact apart_bind (each x) fun _ => ih

theorem apart_foldlM {xs : List α} {f : β → α → Edit β} (each : ∀ b x, Apart (f b x)) (b : β) :
    Apart (xs.foldlM f b) := by
  induction xs generalizing b with
  | nil => exact apart_pure _
  | cons x xs ih =>
    rw [List.foldlM_cons]
    exact apart_bind (each b x) ih

theorem apart_write (f : Ref .future) (c : Future) : Apart (write f c) := fun w => .set w f c (.inl rfl)

theorem apart_update (f : Ref .future) (c : Future → Future) : Apart (update f c) := fun w =>
  .set w f _ (.inl rfl)

theorem apart_create (c : Future) : Apart (create .future c) := fun w => .alloc w c

theorem apart_enqueue (j : Job) : Apart (enqueue j) := fun _ => .ofHeapEq rfl

theorem apart_complete (f : Ref .future) (s : Status) : Apart (complete f s) := by
  unfold complete
  refine apart_bind (apart_quiet _) fun c => ?_
  split
  · exact apart_pure _
  · exact apart_bind (apart_write f _) fun _ => apart_forM fun r => apart_enqueue _

theorem apart_attach (f : Ref .future) (r : Reaction) : Apart (attach f r) := by
  unfold attach
  refine apart_bind (apart_quiet _) fun c => ?_
  split
  · exact apart_enqueue _
  · exact apart_update f _

theorem apart_report (g f : Ref .future) : Apart (report g f) := by
  unfold report
  refine apart_bind (apart_quiet _) fun c => ?_
  split
  · refine apart_bind (apart_update g _) fun _ => ?_
    split
    · exact apart_pure _
    · unfold follow
      refine apart_bind (apart_quiet _) fun m => ?_
      split
      · exact apart_complete g _
      · exact apart_bind (apart_quiet _) fun e => apart_complete g _
      · split
        · split
          · exact apart_bind (apart_quiet _) fun e => apart_complete g _
          · refine apart_bind (apart_quiet _) fun xs => ?_
            split <;> exact apart_bind (apart_quiet _) fun _ => apart_complete g _
        · exact apart_pure _
      · exact apart_pure _
  · exact apart_pure _

theorem apart_asFuture (x : Value) : Apart (asFuture x) := by
  unfold asFuture
  have started (a : Activity) : Apart (spawn a) := by
    unfold spawn
    exact apart_bind (apart_create _) fun t => apart_bind (apart_enqueue _) fun _ => apart_pure t
  split
  · exact apart_pure _
  · refine apart_bind (apart_quiet _) fun co => ?_
    split
    · exact started _
    · exact apart_bind (fun v => .set v _ _ (.inr rfl)) fun _ => started _
  · exact apart_throw _

theorem apart_group (vs : List Value) : Apart (group vs) := by
  unfold group
  split
  · exact apart_bind (apart_quiet _) fun x => apart_create _
  refine apart_bind (apart_create _) fun g => ?_
  refine apart_bind (apart_foldlM (fun seen v => ?_) _) fun members =>
    apart_bind (apart_update g _) fun _ => apart_pure g
  unfold join
  split
  · exact apart_pure _
  · exact apart_bind (apart_asFuture v) fun f => apart_bind (apart_attach f _) fun _ => apart_pure _

end Edit
namespace Site

open Edit Change

variable {S : Site} {g : Plan} {u v w : World}

/-! ## Groups -/

theorem sketches_group {vs : List Value} (tidy : S.Tidy w)
    (futures : ∀ v ∈ vs, ∃ f, v = .obj .future f ∧ w.heap.Live f) :
    ∃ m v, group vs w = (.ok m, v) ∧ S.Sketches g w v ∧ v.heap.Live m ∧ ∀ f : Ref .future,
      .obj .future f ∈ vs → ∃ members, (v.heap.get m).members? = some members ∧ f ∈ members := by
  obtain ⟨m, v, run⟩ := run_group futures
  obtain ⟨moved, holds⟩ := does_group (L := S.moving) futures tidy
  have beside := apart_group vs w
  have adds := adds_group vs w
  rw [run] at moved holds beside adds
  obtain ⟨live, -, spares, -⟩ := holds m rfl
  refine ⟨m, v, run, .ofSame beside.same moved.evolves (circles_of_straight beside.straight)
    (fun {t a x} activity done => ?_) fun tallied => tallied.mono adds.reckons, live,
    fun f mem => (members_group run mem).2.2⟩
  by_cases old : w.heap.Live t
  · have same := spares t old
    refine .inl ⟨?_, same.status.symm.trans done⟩
    rw [← activity]
    simp [Future.activity?, same.origin]
  · rcases adds.new t old with waiting | plain
    · rw [waiting] at done
      cases done
    · simp [Future.activity?, plain] at activity

theorem draws_group {vs : List Value} (orderly : S.Orderly w)
    (futures : ∀ v ∈ vs, ∃ f, v = .obj .future f ∧ w.heap.Live f) : S.Draws g (group vs) w :=
  fun charted => by
    obtain ⟨m, v, run, sketches, -⟩ := sketches_group (g := g) orderly.tidy futures
    rw [run]
    exact ⟨sketches, by simp⟩

theorem sketches_report {m f : Ref .future} {jobs : List Job} :
    S.Sketches g w (report m f { w with ready := jobs }).2 := by
  have touches := World.touches_report m f { w with ready := jobs }
  have beside : w.Beside (report m f { w with ready := jobs }).2 :=
    World.Beside.trans (w := { w with ready := jobs }) (.ofHeapEq rfl) (apart_report m f _)
  have popped : w.Evolves { w with ready := jobs } := .ofHeapEq rfl rfl
  refine .ofSame beside.same (popped.trans touches.turns.evolves) (circles_of_straight beside.straight)
    (fun {t a x} activity done => .inl ?_) fun tallied =>
      tallied.mono (.trans (w := { w with ready := jobs }) (.ofHeapEq rfl)
        (World.reckons_report m f { w with ready := jobs }))
  by_cases same : t = m
  · subst same
    cases members : (w.heap.get t).members? with
    | none =>
      rw [World.report_none (w := { w with ready := jobs }) members] at activity done
      exact ⟨activity, done⟩
    | some ms =>
      have live : w.heap.Live t := by
        by_contra dead
        rw [Heap.get_not_live dead] at members
        cases members
      have follows : Future.Follows _ _ := touches.turns.evolves.follows t live
      have kept := follows.members.trans members
      cases origin : ((report t f { w with ready := jobs }).2.heap.get t).origin <;>
        simp [Future.activity?, Future.members?, origin] at activity kept
  · have kept := touches.others t same
    rw [kept] at activity done
    exact ⟨activity, done⟩

/-! ## Turns -/

theorem sketches_heap (heap : v.heap = w.heap) (functions : v.functions = w.functions) :
    S.Sketches g w v := by
  have beside : w.Beside v := .ofHeapEq heap
  exact .ofSame beside.same (.ofHeapEq heap functions) (circles_of_straight beside.straight)
    (fun activity done => .inl (by rw [heap] at activity done; exact ⟨activity, done⟩)) fun tallied =>
      tallied.mono (.ofHeapEq heap)

theorem sketches_paused (w : World) (t : Ref .future) : S.Sketches g w (w.paused t) :=
  sketches_heap rfl rfl

theorem sketches_popped (jobs : List Job) : S.Sketches g w { w with ready := jobs } :=
  sketches_heap rfl rfl

theorem sketches_resumed {t : Ref .future} (jobs : List Job) (task : w.task? t ≠ none) :
    S.Sketches g w (w.resumed t jobs) := by
  have beside : w.Beside (w.resumed t jobs) :=
    .trans (.set w t _ (.inl rfl)) (.ofHeapEq rfl)
  refine .ofSame beside.same (World.turns_resumed w t jobs).evolves (circles_of_straight beside.straight)
    (fun {s a x} activity done => .inl ?_) fun tallied =>
      tallied.mono (World.reckons_resumed w t jobs)
  by_cases same : s = t
  · subst same
    have undone := (World.runs_resumed jobs task).1
    rw [undone] at done
    cases done
  · rw [World.get_resumed_ne w jobs same] at activity done
    exact ⟨activity, done⟩

theorem sketches_awaiting {t f : Ref .future} (waiting : (w.heap.get f).status = .waiting)
    (runs : w.Runs t) (ne : t ≠ f) : S.Sketches g w (w.awaiting t f) := by
  obtain ⟨_, a, origin⟩ := id runs
  have beside : w.Beside (w.awaiting t f) := by
    rw [World.awaiting_eq waiting origin ne]
    exact .trans (.set w f _ (.inl rfl)) (.trans (.set _ t _ (.inl rfl)) (.ofHeapEq rfl))
  refine .ofSame beside.same (World.turns_awaiting waiting runs ne).evolves
    (circles_of_straight beside.straight) (fun {s b x} activity done => .inl ?_)
    fun tallied => tallied.mono (World.parked_awaiting waiting runs.active ne).reckons
  by_cases same : s = t
  · subst same
    rw [World.status_awaiting waiting runs ne] at done
    cases done
  · have spares := World.spares_awaiting waiting runs ne same
    refine ⟨?_, spares.status.symm.trans done⟩
    rw [← activity]
    simp [Future.activity?, spares.origin]

theorem sketches_ended {t : Ref .future} {a : Activity} {o : Outcome}
    (activity : (w.heap.get t).activity? = some a)
    (result : ∀ x, o = .ok x → Result g w a x) : S.Sketches g w (w.ended t o) := by
  by_cases ended : (w.heap.get t).status = .waiting
  case neg =>
    have same : w.ended t o = { w with current := none } := by
      rw [World.ended_eq, Edit.run_complete, if_pos (by simpa [Status.isDone] using ended)]
    rw [same]
    exact sketches_heap rfl rfl
  have task := World.task?_eq_some.mpr ⟨ended, activity⟩
  have some : w.task? t ≠ none := by simp [task]
  have turns := World.turns_ended w t o
  have beside : w.Beside (w.ended t o) := by
    rw [World.ended_eq]
    exact World.Beside.trans (w := { w with current := none }) (.ofHeapEq rfl) (apart_complete t _ _)
  refine .ofSame beside.same turns.evolves (circles_of_straight beside.straight)
    (fun {s b x} known done => ?_) fun tallied =>
      tallied.mono (World.reckons_ended o some)
  by_cases same : s = t
  · subst same
    right
    obtain rfl := Option.some.inj ((activity_mono turns.evolves activity).symm.trans known)
    rw [World.status_ended o some] at done
    refine (result x ?_).mono turns.evolves
    unfold World.endStatus at done
    split at done
    · cases done
    · cases done
      rfl
    · split at done <;> cases done
  · rw [World.get_ended_ne w o same] at known done
    exact .inl ⟨known, done⟩

end Site
end AsyncImport
