import AsyncImport.Proofs.Evolution
import AsyncImport.Task.Machine

/-!
# Edits as functions

What each primitive edit does to a world, as equations that `simp` can run, and what the edits of
the scheduler come to.
-/

namespace AsyncImport

namespace Edit

variable {α β : Type} {k : Kind}

@[simp] theorem run_pure (a : α) (w : World) : (pure a : Edit α) w = (.ok a, w) := rfl

@[simp] theorem run_throw (f : Fault) (w : World) : (throw f : Edit α) w = (.error f, w) := rfl

theorem bind_ok {β : Type} {x : Edit α} {f : α → Edit β} {b : β} {w v : World}
    (run : (x >>= f) w = (.ok b, v)) : ∃ a u, x w = (.ok a, u) ∧ f a u = (.ok b, v) := by
  rw [run_bind] at run
  rcases first : x w with ⟨e | a, u⟩ <;> rw [first] at run
  · cases run
  · exact ⟨a, u, rfl, run⟩

theorem after_ok {x : Edit α} {w v : World} {a : α} (h : x w = (.ok a, v)) :
    x.after w = (.ok a, v) := by
  unfold after
  rw [h]

theorem after_error {x : Edit α} {w v : World} {e : Fault} (h : x w = (.error e, v)) :
    x.after w = (.error (v.heap.fresh .failure), v.alloc .failure e) := by
  unfold after
  rw [h]
  rfl

theorem run_map (f : α → β) (x : Edit α) (w : World) :
    (f <$> x) w = match x w with
      | (.ok a, w) => (.ok (f a), w)
      | (.error e, w) => (.error e, w) := by
  rw [← bind_pure_comp, run_bind]
  rfl

@[simp] theorem run_lift (x : Quiet α) (w : World) : (liftM x : Edit α) w = x.run w := rfl

@[simp] theorem run_monadLift (x : Quiet α) (w : World) : (monadLift x : Edit α) w = x.run w := rfl

@[simp] theorem run_update (r : Ref k) (f : Cell k → Cell k) (w : World) :
    update r f w = (.ok (), w.set r (f (w.heap.get r))) := rfl

@[simp] theorem run_write (r : Ref k) (c : Cell k) (w : World) : write r c w = (.ok (), w.set r c) :=
  rfl

@[simp] theorem run_create (c : Cell k) (w : World) :
    create k c w = (.ok (w.heap.fresh k), w.alloc k c) := rfl

@[simp] theorem run_enqueue (j : Job) (w : World) : enqueue j w = (.ok (), w.enqueue j) := rfl

end Edit

namespace Quiet

open Edit

variable {α β : Type} {k : Kind}

@[simp] theorem run_pure (a : α) : (pure a : Quiet α).run = pure a := rfl

@[simp] theorem run_throw (f : Refusal) : (throw f : Quiet α).run = throw f.fault := rfl

@[simp] theorem run_bind (x : Quiet α) (f : α → Quiet β) :
    (x >>= f).run = x.run >>= fun a => (f a).run := rfl

theorem ext {x y : Quiet α} (h : x.run = y.run) : x = y := by
  cases x; cases y; simp_all

instance : LawfulMonad Quiet := LawfulMonad.mk' _
  (fun x => ext (by simp [Functor.map]))
  (fun a f => ext (by simp))
  (fun x f g => ext (by simp))

@[simp] theorem run_read (r : Ref k) (w : World) : (read r).run w = (.ok (w.heap.get r), w) := rfl

@[simp] theorem run_heap (w : World) : heap.run w = (.ok w.heap, w) := rfl

theorem run_map (f : α → β) (x : Quiet α) (w : World) :
    (f <$> x).run w = match x.run w with
      | (.ok a, w) => (.ok (f a), w)
      | (.error e, w) => (.error e, w) := run_bind x (pure ∘ f) ▸ Edit.run_bind ..

@[simp] theorem run_failure (f : Refusal) (w : World) :
    (Edit.failure f).run w = (.ok (w.heap.fresh .failure), w.alloc .failure f.fault) := rfl

@[simp] theorem run_newList (vs : List Value) (w : World) :
    (newList vs).run w = (.ok (.obj .list (w.heap.fresh .list)), w.alloc .list vs) := rfl

@[simp] theorem run_newDict (d : Dict) (w : World) :
    (newDict d).run w = (.ok (.obj .dict (w.heap.fresh .dict)), w.alloc .dict d) := rfl

end Quiet

namespace World

variable {w : World} {k l : Kind}

@[simp] theorem ready_set (r : Ref k) (c : Cell k) : (w.set r c).ready = w.ready := rfl
@[simp] theorem current_set (r : Ref k) (c : Cell k) : (w.set r c).current = w.current := rfl
@[simp] theorem functions_set (r : Ref k) (c : Cell k) : (w.set r c).functions = w.functions := rfl
@[simp] theorem ready_alloc (c : Cell k) : (w.alloc k c).ready = w.ready := rfl
@[simp] theorem current_alloc (c : Cell k) : (w.alloc k c).current = w.current := rfl
@[simp] theorem functions_alloc (c : Cell k) : (w.alloc k c).functions = w.functions := rfl
@[simp] theorem ready_enqueue (j : Job) : (w.enqueue j).ready = w.ready ++ [j] := rfl
@[simp] theorem current_enqueue (j : Job) : (w.enqueue j).current = w.current := rfl
@[simp] theorem heap_enqueue (j : Job) : (w.enqueue j).heap = w.heap := rfl

theorem get_set (r s : Ref k) (c : Cell k) (live : w.heap.Live r) :
    (w.set r c).heap.get s = if s = r then c else w.heap.get s := by
  split
  · next e =>
    subst e
    exact Heap.get_set_self _ _ live
  · next e => exact Heap.get_set_ne _ _ e

theorem get_set_ne {r s : Ref k} (c : Cell k) (ne : s ≠ r) :
    (w.set r c).heap.get s = w.heap.get s := Heap.get_set_ne _ _ ne

theorem get_set_kind {r : Ref k} {s : Ref l} (c : Cell k) (ne : l ≠ k) :
    (w.set r c).heap.get s = w.heap.get s := Heap.get_set_kind _ _ ne

theorem get_alloc (s : Ref k) (c : Cell k) :
    (w.alloc k c).heap.get s = if s = w.heap.fresh k then c else w.heap.get s := by
  split
  · next e => exact e ▸ Heap.get_alloc_fresh _ _
  · next e =>
    by_cases live : w.heap.Live s
    · exact Heap.get_alloc_live _ _ live
    · have dead : ¬ (w.heap.alloc k c).Live s := fun h =>
        (Heap.live_alloc.mp h).elim live e
      exact (Heap.get_not_live dead).trans (Heap.get_not_live live).symm

theorem get_alloc_kind {s : Ref l} (c : Cell k) (ne : l ≠ k) :
    (w.alloc k c).heap.get s = w.heap.get s := Heap.get_alloc_kind _ _ ne

@[simp] theorem live_set {r : Ref k} {s : Ref l} {c : Cell k} :
    (w.set r c).heap.Live s ↔ w.heap.Live s := Heap.live_set

theorem live_alloc {s : Ref k} {c : Cell k} :
    (w.alloc k c).heap.Live s ↔ w.heap.Live s ∨ s = w.heap.fresh k := Heap.live_alloc

theorem live_alloc_kind {s : Ref l} {c : Cell k} (ne : l ≠ k) :
    (w.alloc k c).heap.Live s ↔ w.heap.Live s := Heap.live_alloc_kind ne

end World

namespace Edit

/-! ## The scheduler's edits -/

theorem run_spawn (a : Activity) (w : World) :
    spawn a w = (.ok (w.heap.fresh .future),
      (w.alloc .future { origin := .task a none false }).enqueue (.step (w.heap.fresh .future))) := rfl

theorem run_attach (f : Ref .future) (r : Reaction) (w : World) :
    attach f r w = (.ok (), if (w.heap.get f).status.isDone then w.enqueue (.react r f)
      else w.set f { w.heap.get f with reactions := (w.heap.get f).reactions ++ [r] }) := by
  unfold attach
  by_cases h : (w.heap.get f).status.isDone <;> simp [run_bind, h]

theorem run_enqueues (f : Ref .future) (rs : List Reaction) (w : World) :
    (forM rs fun r => enqueue (.react r f)) w =
      (.ok (), { w with ready := w.ready ++ rs.map fun r => .react r f }) := by
  induction rs generalizing w with
  | nil => simp
  | cons r rs ih => simp [run_bind, ih, World.enqueue]

theorem run_complete (f : Ref .future) (s : Status) (w : World) :
    complete f s w = (.ok (), if (w.heap.get f).status.isDone then w else
      { w.set f { w.heap.get f with status := s, reactions := [] } with
        ready := w.ready ++ (w.heap.get f).reactions.map fun r => .react r f }) := by
  unfold complete
  by_cases h : (w.heap.get f).status.isDone <;> simp [run_bind, h, run_enqueues]

end Edit
end AsyncImport
