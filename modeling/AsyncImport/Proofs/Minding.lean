import AsyncImport.Proofs.Additions

/-!
# What happens around a task that waits

While a task waits, others run and the scheduler works. `World.Minds` says what these leave as it is: a
future that is done stays so, a group has a result only if its members have, and a task that has been set
aside goes on waiting for what it waits for. A host is expected to leave all this to the scheduler; the
library does.
-/

namespace AsyncImport

namespace World

variable {u v w : World} {s : Option (Ref .future)} {t f : Ref .future}

structure Minds (s : Option (Ref .future)) (w v : World) : Prop where
  reckons : w.Reckons v
  mild : ∀ t, some t ≠ s → w.task? t ≠ none → Mild t w v
  values : ∀ {t : Ref .future} {x}, some t ≠ s → (v.heap.get t).activity? ≠ none →
    (v.heap.get t).status = .done x → (w.heap.get t).status = .done x

namespace Minds

theorem refl (s : Option (Ref .future)) (w : World) : w.Minds s w :=
  ⟨.refl w, fun t _ _ => .refl t w, fun _ _ => id⟩

theorem trans (first : u.Minds s w) (next : w.Minds s v) : u.Minds s v where
  reckons := first.reckons.trans next.reckons
  mild t other task := (first.mild t other task).trans
    (next.mild t other (by rwa [(first.mild t other task).task?]))
  values {t x} other task done := by
    have before := next.values other task done
    have same := (next.reckons.follows t (Valued.live ⟨x, before⟩)).activity
    exact first.values other (same ▸ task) before

theorem but (minds : w.Minds none v) (s : Option (Ref .future)) : w.Minds s v :=
  ⟨minds.reckons, fun t _ => minds.mild t (by simp), fun _ => minds.values (by simp)⟩

theorem ofGet (live : ∀ f : Ref .future, w.heap.Live f → v.heap.Live f)
    (same : ∀ f : Ref .future, v.heap.get f = w.heap.get f) : w.Minds s v :=
  ⟨.ofGet live same, fun t _ _ => .ofGet (same t), fun _ _ done => by rwa [same] at done⟩

theorem ofHeapEq (heap : v.heap = w.heap) : w.Minds s v := .ofGet (fun _ => heap ▸ id) fun _ => heap ▸ rfl

theorem active (minds : w.Minds s v) (other : some t ≠ s) (active : w.Active t) : v.Active t :=
  active.ofMild (minds.mild t other active.task?)

end Minds

theorem Adds.minds (adds : w.Adds v) : w.Minds s v where
  reckons := adds.reckons
  mild t _ task := (adds.spares t (task?_live task)).mild
  values {t x} _ task done := by
    by_cases live : w.heap.Live t
    · rwa [(adds.spares t live).status] at done
    · rcases adds.new t live with waiting | plain
      · rw [waiting] at done
        cases done
      · simp [Future.activity?, plain] at task

/-! ## Turns -/

theorem minds_failure (w : World) (f : Fault) : w.Minds s (w.alloc .failure f) :=
  .ofGet (fun _ => (live_alloc_kind (by decide)).mpr) fun _ => get_alloc_kind _ (by decide)

theorem Yields.minds {o : Outcome} (yields : w.Yields f o v) : w.Minds s v := by
  cases yields with
  | done | failed => exact .refl s _
  | cancelled => exact minds_failure w _

theorem minds_resumed (w : World) (t : Ref .future) (jobs : List Job) :
    w.Minds (some t) (w.resumed t jobs) where
  reckons := reckons_resumed w t jobs
  mild f other _ := .ofGet (get_resumed_ne w jobs fun same => other (congrArg some same))
  values _ _ done := by rwa [status_resumed] at done

theorem minds_goOn (w : World) (t : Ref .future) : w.Minds (some t) (w.set t (w.heap.get t).goOn) :=
  (minds_resumed w t w.ready).trans (.ofHeapEq rfl)

theorem Parked.minds (parked : Parked t f w v) : w.Minds (some t) v where
  reckons := parked.reckons
  mild s other := parked.mild s fun same => other (congrArg some same)
  values _ _ := parked.results

theorem minds_ended (o : Outcome) (task : w.task? t ≠ none) : w.Minds (some t) (w.ended t o) where
  reckons := reckons_ended o task
  mild f other _ := .ofGet (get_ended_ne w o fun same => other (congrArg some same))
  values {f x} other _ done := by
    rwa [get_ended_ne w o fun same : f = t => other (congrArg some same)] at done

/-- A task that is cancelled before it begins comes to no result. -/
theorem minds_completed (w : World) (t : Ref .future) : w.Minds (some t) (Edit.complete t .cancelled w).2 where
  reckons := reckons_complete fun _ => nofun
  mild f other _ := .ofGet (get_completed_ne w _ fun same => other (congrArg some same))
  values {f x} other _ done := by
    rwa [get_completed_ne w _ fun same : f = t => other (congrArg some same)] at done

theorem minds_report (g f : Ref .future) (w : World) : w.Minds s (Edit.report g f w).2 where
  reckons := reckons_report g f w
  mild t _ task := (spares_report task).mild
  values {t x} _ task done := by
    by_cases same : t = g
    · subst same
      by_cases live : w.heap.Live t
      · have group : (w.heap.get t).members? = none := by
          rw [((touches_report t f w).turns.evolves.endures.futures t live).activity] at task
          obtain ⟨a, task⟩ := Option.ne_none_iff_exists'.mp task
          obtain ⟨_, _, origin⟩ := activity?_eq_some.mp task
          simp [Future.members?, origin]
        rwa [report_none group] at done
      · rw [Heap.get_not_live fun now => live ((touches_report t f w).old t now)] at done
        cases done
    · rwa [(touches_report g f w).others t same] at done

/-- A request for cancellation leaves it to the scheduler to carry it out. -/
theorem minds_cancel (f : Ref .future) (w : World) : w.Minds s (Edit.cancel f w).2 := by
  obtain ⟨x, v, run, asked⟩ := asks_cancel f w
  rw [run]
  exact ⟨asked.endures.reckons fun _ done => .inl (asked.results done), fun t _ => asked.mild t,
    fun _ _ => asked.results⟩

end World

/-- A host is expected to leave it to the scheduler to complete tasks, and groups. It may make new ones,
and ask for their cancellation. -/
def minding : Conduct where
  writes a w v := Hosted a → w.Minds none v
  calls _ _ _ := True
  pauses _ _ := True
  awaits _ _ _ := True
  ends _ _ _ := True

/-! ## Moments -/

end AsyncImport
