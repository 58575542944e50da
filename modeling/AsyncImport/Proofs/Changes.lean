import AsyncImport.Proofs.Edits

/-!
# Changes

What becomes of the world in an edit is told by a `Change`: what has to hold before, and how the world
after it compares. `Change.Does` follows an edit step by step, and its end is told by a predicate on
the result.
-/

namespace AsyncImport

open Edit

structure Change where
  fine : World → Prop
  keeps : World → World → Prop
  refl : ∀ {w : World}, fine w → keeps w w
  trans : ∀ {u w v : World}, keeps u w → keeps w v → keeps u v
  sound : ∀ {w v : World}, keeps w v → fine v
  quiet : ∀ {w v : World}, fine w → w.Near v → keeps w v
  failure : ∀ {w : World} {f : Fault}, fine w → keeps w (w.alloc .failure f)

namespace Change

variable {C : Change} {w v : World} {α β : Type}

def Does (C : Change) (e : Edit α) (w : World) (Q : α → World → Prop) : Prop :=
  C.fine w → C.keeps w (e w).2 ∧ ∀ a, (e w).1 = .ok a → Q a (e w).2

theorem does_ok {e : Edit α} {Q : α → World → Prop} {a : α} (run : e w = (.ok a, v))
    (keeps : C.fine w → C.keeps w v) (holds : C.fine w → Q a v) : C.Does e w Q := by
  intro fine
  rw [run]
  refine ⟨keeps fine, fun b same => ?_⟩
  cases same
  exact holds fine

theorem does_error {e : Edit α} {Q : α → World → Prop} {f : Fault} (run : e w = (.error f, v))
    (keeps : C.fine w → C.keeps w v) : C.Does e w Q := by
  intro fine
  rw [run]
  exact ⟨keeps fine, by simp⟩

theorem does_fine {e : Edit α} {Q : α → World → Prop} (does : C.fine w → C.Does e w Q) :
    C.Does e w Q := fun fine => does fine fine

theorem does_pure {Q : α → World → Prop} {a : α} (holds : C.fine w → Q a w) :
    C.Does (pure a) w Q := does_ok rfl C.refl holds

theorem does_throw {Q : α → World → Prop} (f : Fault) : C.Does (throw f : Edit α) w Q :=
  does_error rfl C.refl

theorem does_bind {x : Edit α} {f : α → Edit β} {R : α → World → Prop} {Q : β → World → Prop}
    (first : C.Does x w R) (next : ∀ a v, C.keeps w v → R a v → C.Does (f a) v Q) :
    C.Does (x >>= f) w Q := by
  intro fine
  obtain ⟨keeps, holds⟩ := first fine
  rw [run_bind]
  rcases run : x w with ⟨e | a, v⟩ <;> rw [run] at keeps holds
  · exact ⟨keeps, by simp⟩
  · obtain ⟨later, ends⟩ := next a v keeps (holds a rfl) (C.sound keeps)
    exact ⟨C.trans keeps later, ends⟩

theorem does_look {x : Edit α} {f : α → Edit β} {Q : β → World → Prop} {a : α}
    (run : C.fine w → x w = (.ok a, w)) (next : C.Does (f a) w Q) : C.Does (x >>= f) w Q := by
  intro fine
  have next := next fine
  rw [run_bind, run fine]
  exact next

theorem does_fail {x : Edit α} {f : α → Edit β} {Q : β → World → Prop} {e : Fault}
    (run : C.fine w → x w = (.error e, w)) : C.Does (x >>= f) w Q := by
  intro fine
  rw [run_bind, run fine]
  exact ⟨C.refl fine, by simp⟩

theorem does_quiet (x : Quiet α) :
    C.Does (liftM x : Edit α) w fun a v => w.Near v ∧ x.run w = (.ok a, v) := fun fine =>
  ⟨C.quiet fine (x.near w), fun _ run => ⟨x.near w, Prod.ext run rfl⟩⟩

theorem does_forM {xs : List α} {f : α → Edit PUnit}
    (each : ∀ x ∈ xs, ∀ v, C.keeps w v → C.Does (f x) v fun _ _ => True) :
    C.Does (forM xs f) w fun _ _ => True := by
  induction xs generalizing w with
  | nil => exact does_pure fun _ => trivial
  | cons x xs ih =>
    rw [List.forM_cons]
    refine does_fine fun fine => ?_
    refine does_bind (each x List.mem_cons_self w (C.refl fine)) fun _ v keeps _ => ?_
    exact ih fun y mem u later => each y (List.mem_cons_of_mem _ mem) u (C.trans keeps later)

theorem Does.mono {e : Edit α} {Q R : α → World → Prop} (does : C.Does e w Q)
    (weaker : ∀ a v, C.keeps w v → Q a v → R a v) : C.Does e w R := fun fine =>
  ⟨(does fine).1, fun a run => weaker a _ (does fine).1 ((does fine).2 a run)⟩

theorem Does.after {e : Edit α} {Q : α → World → Prop} (does : C.Does e w Q) (fine : C.fine w) :
    C.keeps w (e.after w).2 ∧ ∀ a, (e.after w).1 = .ok a → Q a (e.after w).2 := by
  obtain ⟨keeps, holds⟩ := does fine
  unfold Edit.after
  rcases run : e w with ⟨f | a, v⟩ <;> rw [run] at keeps holds
  · exact ⟨C.trans keeps (C.failure (C.sound keeps)), by simp⟩
  · exact ⟨keeps, by simpa using holds⟩

theorem Does.holds {e : Edit α} {Q : α → World → Prop} {x : α} (does : C.Does e w Q)
    (fine : C.fine w) (run : e w = (.ok x, v)) : Q x v := by
  obtain ⟨-, holds⟩ := does fine
  rw [run] at holds
  exact holds x rfl

end Change
end AsyncImport
