import AsyncImport.Proofs.Soundness
import AsyncImport.Task.Await

/-!
# Proving routines safe

`Protocol.Safe` follows the way routines are put together: there is one lemma for each of `andThen`,
`bind` and `edit`. Code that neither pauses nor waits by itself stays `Routine.Within` the changes it
makes and the activities it asks for, under any protocol; `safe_within` turns this into safety.
-/

namespace AsyncImport

namespace Protocol

variable {P : Protocol} {α β : Type} {a : Option Activity}

theorem safe_andThen {Q : Except (Ref .failure) α → World → Prop}
    {R : Except (Ref .failure) β → World → Prop} {r : Routine α}
    {f : α → Routine β} {g : Ref .failure → Routine β}
    (value : ∀ x v, Q (.ok x) v → P.Safe a R (f x) v)
    (fault : ∀ e v, Q (.error e) v → P.Safe a R (g e) v) : ∀ {w : World},
    P.Safe a Q r w → P.Safe a R (r.andThen f g) w := by
  -- the induction is on the code: each request of it is safe as before, with `f` or `g` in place of the end
  induction r with
  | done x => exact value x _
  | fail e => exact fault e _
  | read k ih => exact fun safe => ih _ safe
  | write v k ih =>
    intro w safe expected
    obtain ⟨move, fair, next⟩ := safe expected
    exact ⟨move, fair, ih next⟩
  | call b k ih =>
    intro w safe expected
    obtain ⟨pre, next⟩ := safe expected
    exact ⟨pre, fun o v evolves current post => ih o (next o v evolves current post)⟩
  | pause k ih =>
    intro w safe expected
    have safe := safe expected
    cases current : w.current with
    | none =>
      rw [current] at safe
      exact ih _ safe
    | some t =>
      rw [current] at safe
      exact ⟨safe.1, fun u o v later ground inv none wakes =>
        ih o (safe.2 u o v later ground inv none wakes)⟩
  | await h k ih =>
    intro w safe expected
    obtain ⟨ready, wait⟩ := safe expected
    refine ⟨fun o v yields => ih o (ready o v yields), fun waiting => ?_⟩
    have wait := wait waiting
    cases current : w.current with
    | none =>
      rw [current] at wait
      exact ih _ wait
    | some t =>
      rw [current] at wait
      refine ⟨fun own => ih _ (wait.1 own), fun other => ?_⟩
      obtain ⟨inv, wakes⟩ := wait.2 other
      exact ⟨inv, fun u o v later ground inv none woken =>
        ih o (wakes u o v later ground inv none woken)⟩

theorem safe_bind {Q : Except (Ref .failure) α → World → Prop}
    {R : Except (Ref .failure) β → World → Prop} {r : Routine α} {f : α → Routine β} {w : World}
    (safe : P.Safe a Q r w) (value : ∀ x v, Q (.ok x) v → P.Safe a R (f x) v)
    (fault : ∀ e v, Q (.error e) v → R (.error e) v) : P.Safe a R (r.bind f) w := by
  rw [← Routine.andThen_fail]
  exact safe_andThen (g := .fail) value fault safe

theorem Safe.mono {Q R : Except (Ref .failure) α → World → Prop} {r : Routine α} {w : World}
    (safe : P.Safe a Q r w) (weaker : ∀ o v, Q o v → R o v) : P.Safe a R r w := by
  rw [← Routine.bind_done r]
  exact safe_bind safe (fun x v => weaker (.ok x) v) (fun e v => weaker (.error e) v)

theorem safe_ofResult {Q : Except (Ref .failure) α → World → Prop}
    (o : Except (Ref .failure) α) {w : World} (holds : Q o w) : P.Safe a Q (.ofResult o) w := by
  cases o <;> exact holds

theorem safe_edit {Q : Except (Ref .failure) α → World → Prop} {e : Edit α} {w : World}
    (holds : P.conduct.writes a w (e.after w).2 →
      P.move a w (e.after w).2 ∧ P.Fair w (e.after w).2 ∧ Q (e.after w).1 (e.after w).2) :
    P.Safe a Q (.edit e) w := by
  intro expected
  obtain ⟨move, fair, result⟩ := holds expected
  exact ⟨move, fair, safe_ofResult _ result⟩

end Protocol

/-- What a piece of code keeps to: how it changes the world, what it asks for, and what it can take
for granted all along. -/
structure Bounds where
  writes : World → World → Prop
  calls : Activity → Prop
  granted : World → Prop

def Brief (args : List Value) : Prop := ∀ m r, args ≠ [.obj .manager m, .obj .module r]

structure Bounds.Telling (B : Bounds) : Prop where
  tame : ∀ {w v : World}, w.Tame v → B.writes w v
  tell : ∀ f args, Brief args → B.calls (.invoke f args)

structure Bounds.Plain (B : Bounds) : Prop where
  tame : ∀ {w v : World}, w.Tame v → B.writes w v
  invoke : ∀ f args, B.calls (.invoke f args)

theorem Bounds.Plain.telling {B : Bounds} (plain : B.Plain) : B.Telling :=
  ⟨plain.tame, fun f args _ => plain.invoke f args⟩

structure Bounds.Roomy (B : Bounds) : Prop where
  plain : B.Plain
  awaitValue : ∀ v, B.calls (.awaitValue v)

def Routine.Within {α : Type} (B : Bounds) : Routine α → World → Prop
  | .done _, _ => True
  | .fail _, _ => True
  | .read k, w => (k w).Within B w
  | .write v k, w => B.writes w v ∧ (B.granted v → k.Within B v)
  | .call a k, _ => B.calls a ∧ ∀ o v, B.granted v → (k o).Within B v
  | .pause _, _ => False
  | .await _ _, _ => False

namespace Routine

variable {B : Bounds} {α β : Type}

theorem within_andThen {r : Routine α} {f : α → Routine β} {g : Ref .failure → Routine β}
    (value : ∀ x v, B.granted v → (f x).Within B v)
    (fault : ∀ e v, B.granted v → (g e).Within B v) : ∀ {w : World}, B.granted w →
    r.Within B w → (r.andThen f g).Within B w := by
  induction r with
  | done x => exact fun granted _ => value x _ granted
  | fail e => exact fun granted _ => fault e _ granted
  | read k ih => exact fun granted within => ih _ granted within
  | write v k ih => exact fun granted within => ⟨within.1, fun later => ih later (within.2 later)⟩
  | call b k ih =>
    exact fun granted within => ⟨within.1, fun o v later => ih o later (within.2 o v later)⟩
  | pause k ih => exact fun _ within => within
  | await f k ih => exact fun _ within => within

theorem within_bind {r : Routine α} {f : α → Routine β} {w : World} (granted : B.granted w)
    (within : r.Within B w) (next : ∀ x v, B.granted v → (f x).Within B v) :
    (r.bind f).Within B w := by
  rw [← andThen_fail]
  exact within_andThen (g := .fail) next (fun _ _ _ => trivial) granted within

theorem within_ofResult (o : Except (Ref .failure) α) (w : World) : (ofResult o).Within B w := by
  cases o <;> exact trivial

theorem within_edit {e : Edit α} {w : World} (writes : B.writes w (e.after w).2) :
    (edit e).Within B w := ⟨writes, fun _ => within_ofResult _ _⟩

theorem near_after (x : Quiet α) (w : World) : w.Near ((liftM x : Edit α).after w).2 := by
  have near := x.near w
  have straight := x.straight w
  unfold Edit.after
  rw [Edit.run_lift]
  rcases h : x.run w with ⟨f | y, v⟩ <;> rw [h] at near straight
  · exact near.trans (World.Near.ofAlloc (k := .failure) v f rfl (straight f rfl))
  · exact near

theorem within_perform {b : Activity} (calls : B.calls b) (w : World) : (perform b).Within B w :=
  ⟨calls, fun o _ _ => by cases o <;> exact trivial⟩

theorem within_mapM {xs : List α} {f : α → Routine β}
    (each : ∀ x ∈ xs, ∀ w, B.granted w → (f x).Within B w) {w : World} (granted : B.granted w) :
    (xs.mapM f).Within B w := by
  induction xs generalizing w with
  | nil => exact trivial
  | cons x xs ih =>
    rw [List.mapM_cons]
    refine within_bind granted (each x List.mem_cons_self w granted) fun y v later => ?_
    refine within_bind later (ih (fun y mem => each y (List.mem_cons_of_mem _ mem)) later) ?_
    exact fun _ _ _ => trivial

theorem within_foldlM {xs : List α} {f : β → α → Routine β}
    (each : ∀ b, ∀ x ∈ xs, ∀ w, B.granted w → (f b x).Within B w) (b : β) {w : World}
    (granted : B.granted w) : (xs.foldlM f b).Within B w := by
  induction xs generalizing b w with
  | nil => exact trivial
  | cons x xs ih =>
    rw [List.foldlM_cons]
    exact within_bind granted (each b x List.mem_cons_self w granted) fun c v later =>
      ih (fun c y mem => each c y (List.mem_cons_of_mem _ mem)) c later

theorem within_anyM {xs : List α} {f : α → Routine Bool}
    (each : ∀ x, ∀ w, B.granted w → (f x).Within B w) {w : World} (granted : B.granted w) :
    (xs.anyM f).Within B w := by
  induction xs generalizing w with
  | nil => exact trivial
  | cons x xs ih =>
    unfold List.anyM
    refine within_bind granted (each x w granted) fun found v later => ?_
    cases found with
    | true => exact trivial
    | false => exact ih later

theorem within_filterAuxM {xs : List α} {f : α → Routine Bool}
    (each : ∀ x, ∀ w, B.granted w → (f x).Within B w) (kept : List α) {w : World}
    (granted : B.granted w) : (xs.filterAuxM f kept).Within B w := by
  induction xs generalizing kept w with
  | nil => exact trivial
  | cons x xs ih =>
    unfold List.filterAuxM
    exact within_bind granted (each x w granted) fun _ v later => ih _ later

theorem within_filterM {xs : List α} {f : α → Routine Bool}
    (each : ∀ x, ∀ w, B.granted w → (f x).Within B w) {w : World} (granted : B.granted w) :
    (xs.filterM f).Within B w := by
  unfold List.filterM
  exact within_bind granted (within_filterAuxM each [] granted) fun _ _ _ => trivial

section

variable (tame : ∀ {w v : World}, w.Tame v → B.writes w v)
include tame

theorem within_quiet (x : Quiet α) (w : World) : (liftM x : Routine α).Within B w :=
  within_edit (tame (near_after x w).tame)

theorem within_raise (f : Refusal) (w : World) : (raise f : Routine α).Within B w :=
  within_quiet tame (throw f) w

theorem within_first {x : Quiet α} {f : α → Routine β} {w : World} (granted : B.granted w)
    (next : ∀ a v, B.granted v → (f a).Within B v) : (liftM x >>= f).Within B w :=
  within_bind granted (within_quiet tame x w) next

theorem within_discard (v : Value) (w : World) : (discard v).Within B w := by
  unfold discard
  split
  · exact within_quiet tame _ w
  · exact trivial

end

theorem within_callValue (plain : B.Plain) (f : Value) (args : List Value) (w : World) :
    (callValue f args).Within B w := within_perform (plain.invoke f args) w

theorem within_settleGiven (roomy : B.Roomy) (v : Value) (w : World) : (settleGiven v).Within B w := by
  unfold settleGiven
  split
  · exact within_perform (roomy.awaitValue v) w
  · exact trivial

theorem within_awaitGiven (roomy : B.Roomy) (v : Value) (w : World) : (awaitGiven v).Within B w := by
  unfold awaitGiven
  split
  · exact within_perform (roomy.awaitValue v) w
  · exact within_raise roomy.plain.tame _ w

theorem within_rescue {x : Routine α} {answer : Ref .failure → Routine α}
    (answers : ∀ e v, B.granted v → (answer e).Within B v) {w : World} (granted : B.granted w)
    (within : x.Within B w) : (rescue x answer).Within B w := by
  refine within_andThen (f := .done) (fun _ _ _ => trivial) (fun e v later => ?_) granted within
  show (if (v.heap.get e).ordinary then answer e else .fail e).Within B v
  split
  · exact answers e v later
  · exact trivial

end Routine

end AsyncImport
