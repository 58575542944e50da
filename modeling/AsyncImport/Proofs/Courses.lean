import AsyncImport.Proofs.Backing
import AsyncImport.Proofs.Safety
import Mathlib.Data.List.Forall2

/-!
# Courses

What a piece of code leaves behind is compared with what it found. A `Course` of a protocol is a
comparison that every request of the library's code stands up to, and `Course.Goes` follows a routine
from the beginning to the end: it keeps to the protocol, and its end is told by a predicate on the
outcome. The lemmas here are those that no protocol has to prove again.
-/

namespace AsyncImport

inductive World.Answers (w : World) (f : Ref .future) : Outcome → Prop
  | done {x : Value} (status : (w.heap.get f).status = .done x) : Answers w f (.ok x)
  | failed {e : Ref .failure} (status : (w.heap.get f).status = .failed e) : Answers w f (.error e)
  | cancelled {e : Ref .failure} (status : (w.heap.get f).status = .cancelled) :
      Answers w f (.error e)
  | refused {e : Ref .failure} (own : w.current = none ∨ w.current = some f) :
      Answers w f (.error e)
  | interrupted {e : Ref .failure} (fault : w.heap.get e = .cancelled) : Answers w f (.error e)

namespace Protocol

/-- A task that goes on is told what it waited for, or that it is cancelled. -/
theorem answers_woken {t f : Ref .future} {x u v : World} {o : Outcome}
    (waits : (x.heap.get t).waitsFor? = some f) (mild : World.Mild t x u) (wakes : Wakes t u o v) :
    v.Answers f o := by
  rw [← mild.waitsFor] at waits
  cases wakes with
  | step _ free => simp [free] at waits
  | react _ for_ yields =>
    obtain rfl := Option.some.inj (waits.symm.trans for_)
    cases yields with
    | done status => exact .done ((World.status_resumed ..).trans status)
    | failed status => exact .failed ((World.status_resumed ..).trans status)
    | cancelled status =>
      refine .cancelled ((World.status_resumed ..).trans ?_)
      rwa [World.get_alloc_kind _ (by decide)]
  | cancelled => exact .interrupted (Heap.get_alloc_fresh _ _)

structure Course (P : Protocol) where
  /-- What holds at every moment while code runs. -/
  fine : World → Prop
  /-- What code leaves behind, compared with what it found. -/
  keeps : World → World → Prop
  /-- The running task can be set aside. -/
  free : World → Prop
  refl : ∀ {w : World}, fine w → keeps w w
  trans : ∀ {u w v : World}, keeps u w → keeps w v → keeps u v
  sound : ∀ {w v : World}, keeps w v → fine v
  active : ∀ {w : World} {t}, fine w → w.current = some t → w.Active t
  mild : ∀ {t} {w v : World}, P.spares t w v → World.Mild t w v
  failure : ∀ {w : World} {f}, fine w → Fault.isCircular f = false → keeps w (w.alloc .failure f)
  tame : ∀ {a} {w v : World}, fine w → w.Tame v → P.conduct.writes a w v →
    P.move a w v ∧ P.Fair w v ∧ keeps w v
  paused : ∀ {w : World} {t : Ref .future}, fine w → free w → w.current = some t → P.inv (w.paused t)
  awaiting : ∀ {w : World} {t f : Ref .future}, fine w → free w → w.current = some t →
    (w.heap.get f).status = .waiting → t ≠ f → P.inv (w.awaiting t f)
  woken : ∀ {w x u v : World} {t o}, fine w → free w → w.current = some t → w.Turns x →
    x.task? t ≠ none → P.Later t x u → P.ground u → P.inv u → u.current = none → Wakes t u o v →
    keeps w v

namespace Course

variable {P : Protocol} (C : Course P) {α β : Type} {a : Option Activity} {w : World}

/-- A routine keeps to the protocol and to the course, and its end is as `Q` says. -/
def Goes (a : Option Activity) (r : Routine α) (Q : Except (Ref .failure) α → World → Prop)
    (w : World) : Prop := P.Safe a (fun o v => C.keeps w v ∧ Q o v) r w

def Ok (R : α → World → Prop) : Except (Ref .failure) α → World → Prop
  | .ok x, v => R x v
  | .error _, _ => True

abbrev Any : Except (Ref .failure) α → World → Prop := fun _ _ => True

/-- Any fault will do. -/
class Lenient (Q : Except (Ref .failure) α → World → Prop) : Prop where
  fault : ∀ e v, Q (.error e) v

instance : Lenient (Any : Except (Ref .failure) α → World → Prop) := ⟨fun _ _ => trivial⟩

instance {R : α → World → Prop} : Lenient (Ok R) := ⟨fun _ _ => trivial⟩

variable {C} {Q : Except (Ref .failure) α → World → Prop}

theorem Goes.after {r : Routine α} {u : World} (goes : C.Goes a r Q w) (keeps : C.keeps u w) :
    P.Safe a (fun o v => C.keeps u v ∧ Q o v) r w :=
  Safe.mono goes fun _ _ ⟨later, holds⟩ => ⟨C.trans keeps later, holds⟩

theorem Goes.mono {R : Except (Ref .failure) α → World → Prop} {r : Routine α} (goes : C.Goes a r Q w)
    (weaker : ∀ o v, C.keeps w v → Q o v → R o v) : C.Goes a r R w :=
  Safe.mono goes fun o v ⟨keeps, holds⟩ => ⟨keeps, weaker o v keeps holds⟩

theorem Goes.any {r : Routine α} (goes : C.Goes a r Q w) : C.Goes a r Any w :=
  goes.mono fun _ _ _ _ => trivial

theorem goes_done {x : α} (fine : C.fine w) (holds : Q (.ok x) w) : C.Goes a (.done x) Q w :=
  ⟨C.refl fine, holds⟩

theorem goes_fail {e : Ref .failure} (fine : C.fine w) (holds : Q (.error e) w) :
    C.Goes a (.fail e) Q w := ⟨C.refl fine, holds⟩

theorem goes_andThen {R : Except (Ref .failure) α → World → Prop}
    {Q : Except (Ref .failure) β → World → Prop} {r : Routine α} {f : α → Routine β}
    {g : Ref .failure → Routine β} (first : C.Goes a r R w)
    (value : ∀ x v, C.keeps w v → R (.ok x) v → C.Goes a (f x) Q v)
    (fault : ∀ e v, C.keeps w v → R (.error e) v → C.Goes a (g e) Q v) :
    C.Goes a (r.andThen f g) Q w :=
  safe_andThen (fun x v ⟨keeps, holds⟩ => (value x v keeps holds).after keeps)
    (fun e v ⟨keeps, holds⟩ => (fault e v keeps holds).after keeps) first

theorem goes_bind' {R : Except (Ref .failure) α → World → Prop}
    {Q : Except (Ref .failure) β → World → Prop} {r : Routine α} {f : α → Routine β}
    (first : C.Goes a r R w)
    (value : ∀ x v, C.keeps w v → R (.ok x) v → C.Goes a (f x) Q v)
    (fault : ∀ e v, C.keeps w v → R (.error e) v → Q (.error e) v) : C.Goes a (r.bind f) Q w := by
  rw [← Routine.andThen_fail]
  exact goes_andThen first value fun e v keeps holds => goes_fail (C.sound keeps) (fault e v keeps holds)

theorem goes_bind {R : Except (Ref .failure) α → World → Prop}
    {Q : Except (Ref .failure) β → World → Prop} [Lenient Q] {r : Routine α} {f : α → Routine β}
    (first : C.Goes a r R w)
    (value : ∀ x v, C.keeps w v → R (.ok x) v → C.Goes a (f x) Q v) : C.Goes a (r.bind f) Q w :=
  goes_bind' first value fun e v _ _ => Lenient.fault e v

/-! ## Edits and activities -/

theorem goes_edit {e : Edit α} (steps : P.conduct.writes a w (e.after w).2 →
      P.move a w (e.after w).2 ∧ P.Fair w (e.after w).2 ∧ C.keeps w (e.after w).2)
    (holds : P.conduct.writes a w (e.after w).2 → C.keeps w (e.after w).2 →
      Q (e.after w).1 (e.after w).2) :
    C.Goes a (Routine.edit e) Q w :=
  safe_edit fun expected => by
    obtain ⟨move, fair, keeps⟩ := steps expected
    exact ⟨move, fair, keeps, holds expected keeps⟩

theorem goes_doing' {e : Edit α} {f : α → Routine β} {Q : Except (Ref .failure) β → World → Prop}
    (steps : P.conduct.writes a w (e.after w).2 →
      P.move a w (e.after w).2 ∧ P.Fair w (e.after w).2 ∧ C.keeps w (e.after w).2)
    (value : ∀ x v, e w = (.ok x, v) → P.conduct.writes a w v → C.keeps w v → C.Goes a (f x) Q v)
    (fault : ∀ c v, e w = (.error c, v) → C.keeps w (v.alloc .failure c) →
      Q (.error (v.heap.fresh .failure)) (v.alloc .failure c)) :
    C.Goes a ((Routine.edit e).bind f) Q w := by
  refine goes_bind' (R := fun o v => P.conduct.writes a w v ∧ (o, v) = e.after w)
    (goes_edit steps fun expected _ => ⟨expected, rfl⟩) (fun x v keeps ⟨expected, is⟩ => ?_)
    fun c v keeps ⟨_, is⟩ => ?_
  · refine value x v ?_ expected keeps
    unfold Edit.after at is
    rcases run : e w with ⟨c | y, u⟩ <;> rw [run] at is <;> cases is
    rfl
  · unfold Edit.after at is
    rcases run : e w with ⟨c | y, u⟩ <;> rw [run] at is <;> cases is
    exact fault c u run keeps

theorem goes_doing {e : Edit α} {f : α → Routine β} {Q : Except (Ref .failure) β → World → Prop}
    [Lenient Q] (steps : P.conduct.writes a w (e.after w).2 →
      P.move a w (e.after w).2 ∧ P.Fair w (e.after w).2 ∧ C.keeps w (e.after w).2)
    (value : ∀ x v, e w = (.ok x, v) → P.conduct.writes a w v → C.keeps w v → C.Goes a (f x) Q v) :
    C.Goes a ((Routine.edit e).bind f) Q w :=
  goes_doing' steps value fun _ _ _ _ => Lenient.fault _ _

theorem steps_quiet {x : Quiet α} (fine : C.fine w)
    (expected : P.conduct.writes a w (Edit.after (liftM x : Edit α) w).2) :
    P.move a w (Edit.after (liftM x : Edit α) w).2 ∧ P.Fair w (Edit.after (liftM x : Edit α) w).2 ∧
      C.keeps w (Edit.after (liftM x : Edit α) w).2 :=
  C.tame fine (Routine.near_after x w).tame expected

theorem goes_first' {x : Quiet α} {f : α → Routine β} {Q : Except (Ref .failure) β → World → Prop}
    (fine : C.fine w)
    (value : ∀ y v, x.run w = (.ok y, v) → C.keeps w v → C.Goes a (f y) Q v)
    (fault : ∀ c v, x.run w = (.error c, v) → C.keeps w (v.alloc .failure c) →
      Q (.error (v.heap.fresh .failure)) (v.alloc .failure c)) :
    C.Goes a (liftM x >>= f) Q w :=
  goes_doing' (steps_quiet fine) (fun y v run _ keeps => value y v run keeps) fault

theorem goes_first {x : Quiet α} {f : α → Routine β} {Q : Except (Ref .failure) β → World → Prop}
    [Lenient Q] (fine : C.fine w)
    (value : ∀ y v, x.run w = (.ok y, v) → C.keeps w v → C.Goes a (f y) Q v) :
    C.Goes a (liftM x >>= f) Q w :=
  goes_first' fine value fun _ _ _ _ => Lenient.fault _ _

theorem goes_quiet' {x : Quiet α} (fine : C.fine w)
    (value : ∀ y v, x.run w = (.ok y, v) → C.keeps w v → Q (.ok y) v)
    (fault : ∀ c v, x.run w = (.error c, v) → C.keeps w (v.alloc .failure c) →
      Q (.error (v.heap.fresh .failure)) (v.alloc .failure c)) :
    C.Goes a (liftM x : Routine α) Q w := by
  rw [← Routine.bind_done (liftM x : Routine α)]
  exact goes_first' fine (fun y v run keeps => goes_done (C.sound keeps) (value y v run keeps)) fault

theorem goes_quiet [Lenient Q] {x : Quiet α} (fine : C.fine w)
    (value : ∀ y v, x.run w = (.ok y, v) → C.keeps w v → Q (.ok y) v) :
    C.Goes a (liftM x : Routine α) Q w :=
  goes_quiet' fine value fun _ _ _ _ => Lenient.fault _ _

theorem goes_raised [Lenient Q] {β : Type} {f : Refusal} {k : β → Routine α} (fine : C.fine w) :
    C.Goes a ((Routine.raise f : Routine β).bind k) Q w :=
  goes_first (x := throw f) fine fun _ _ run _ => by cases run

theorem goes_raise [Lenient Q] {f : Refusal} (fine : C.fine w) :
    C.Goes a (Routine.raise f : Routine α) Q w :=
  goes_quiet (x := throw f) fine fun _ _ run _ => by cases run

theorem goes_world {f : World → Routine α} (next : C.Goes a (f w) Q w) :
    C.Goes a (Routine.world >>= f) Q w := next

theorem goes_perform {b : Activity} {Q : Outcome → World → Prop}
    (carried : P.conduct.calls a w b → P.pre a b w ∧ ∀ o v, P.lasts w v → v.current = w.current →
      P.post b w o v → C.keeps w v ∧ Q o v) : C.Goes a (Routine.perform b) Q w := fun calls => by
  obtain ⟨pre, post⟩ := carried calls
  exact ⟨pre, fun o v lasts current done => by cases o <;> exact post _ v lasts current done⟩

/-! ## Lists -/

theorem goes_mapM {xs : List α} {f : α → Routine β} {J : World → Prop} {R : α → β → World → Prop}
    (fine : C.fine w) (first : J w)
    (each : ∀ x ∈ xs, ∀ v, C.keeps w v → J v → C.Goes a (f x) (Ok fun y u => J u ∧ R x y u) v)
    (stays : ∀ {x y u v}, R x y u → C.keeps u v → R x y v) :
    C.Goes a (xs.mapM f) (Ok fun ys v => J v ∧ List.Forall₂ (fun x y => R x y v) xs ys) w := by
  induction xs generalizing w with
  | nil => exact goes_done fine ⟨first, .nil⟩
  | cons x xs ih =>
    rw [List.mapM_cons]
    refine goes_bind (each x List.mem_cons_self w (C.refl fine) first) fun y v keeps ⟨still, is⟩ => ?_
    refine goes_bind (ih (C.sound keeps) still fun z mem u later =>
      each z (List.mem_cons_of_mem _ mem) u (C.trans keeps later)) fun ys u later ⟨still, all⟩ => ?_
    exact goes_done (C.sound later) ⟨still, .cons (stays is later) all⟩

theorem goes_each {xs : List α} {f : α → Routine β} (fine : C.fine w)
    (each : ∀ x ∈ xs, ∀ v, C.keeps w v → C.Goes a (f x) Any v) : C.Goes a (xs.mapM f) Any w :=
  (goes_mapM (J := fun _ => True) (R := fun _ _ _ => True) fine trivial
    (fun x mem v keeps _ => (each x mem v keeps).mono fun o _ _ _ => by cases o <;> simp [Ok])
    fun _ _ => trivial).any

theorem goes_forAll {xs : List α} {f : α → Routine PUnit} {R : α → World → Prop} (fine : C.fine w)
    (each : ∀ x ∈ xs, ∀ v, C.keeps w v → C.Goes a (f x) (Ok fun _ u => R x u) v)
    (stays : ∀ {x u v}, R x u → C.keeps u v → R x v) :
    C.Goes a (forM xs f) (Ok fun _ v => ∀ x ∈ xs, R x v) w := by
  induction xs generalizing w with
  | nil => exact goes_done fine fun x mem => absurd mem List.not_mem_nil
  | cons x xs ih =>
    rw [List.forM_cons]
    refine goes_bind (each x List.mem_cons_self w (C.refl fine)) fun _ v keeps is => ?_
    have rest := ih (C.sound keeps) fun y mem u later =>
      each y (List.mem_cons_of_mem _ mem) u (C.trans keeps later)
    refine rest.mono fun o u later all => ?_
    cases o with
    | error e => trivial
    | ok y =>
      intro z mem
      rcases List.mem_cons.mp mem with rfl | among
      · exact stays is later
      · exact all z among

theorem goes_forM {xs : List α} {f : α → Routine PUnit} {J : World → Prop} (fine : C.fine w)
    (first : J w)
    (each : ∀ x ∈ xs, ∀ v, C.keeps w v → J v → C.Goes a (f x) (Ok fun _ => J) v) :
    C.Goes a (forM xs f) (Ok fun _ => J) w := by
  induction xs generalizing w with
  | nil => exact goes_done fine first
  | cons x xs ih =>
    rw [List.forM_cons]
    exact goes_bind (each x List.mem_cons_self w (C.refl fine) first) fun y v keeps still =>
      ih (C.sound keeps) still fun z mem u later =>
        each z (List.mem_cons_of_mem _ mem) u (C.trans keeps later)

/-! ## Waiting -/

theorem goes_await {f : Ref .future} {k : Outcome → Routine α} (fine : C.fine w)
    (free : P.conduct.awaits a w f → C.free w)
    (next : ∀ o v, C.keeps w v → v.Answers f o → C.Goes a (k o) Q v) :
    C.Goes a (.await f k) Q w := by
  intro expected
  have free := free expected
  refine ⟨fun o v yields => ?_, fun waiting => ?_⟩
  · have told : C.keeps w v ∧ v.Answers f o := by
      cases yields with
      | done status => exact ⟨C.refl fine, .done status⟩
      | failed status => exact ⟨C.refl fine, .failed status⟩
      | cancelled status =>
        exact ⟨C.failure fine rfl, .cancelled (by rwa [World.get_alloc_kind _ (by decide)])⟩
    exact (next o v told.1 told.2).after told.1
  have failed (own : w.current = none ∨ w.current = some f) :=
    have keeps := C.failure fine (f := .plain .runtime) rfl
    (next (.error (w.heap.fresh .failure)) _ keeps (.refused own)).after keeps
  cases own : w.current with
  | none => exact failed (.inl own)
  | some t =>
    refine ⟨fun same => failed (.inr (same ▸ own)), fun other => ?_⟩
    have active := C.active fine own
    have parked := World.parked_awaiting waiting active other
    refine ⟨C.awaiting fine free own waiting other, fun u o v later ground inv idle wakes => ?_⟩
    obtain ⟨b, task⟩ := Option.ne_none_iff_exists'.mp active.task?
    have aside : (w.awaiting t f).task? t ≠ none := by
      simp [parked.turns.evolves.task?_some task parked.status]
    have keeps := C.woken fine free own parked.turns aside later ground inv idle wakes
    have answers := answers_woken parked.waits (C.mild later.spares) wakes
    exact (next o v keeps answers).after keeps

theorem goes_result {f : Ref .future} {Q : Outcome → World → Prop} (fine : C.fine w)
    (free : P.conduct.awaits a w f → C.free w)
    (holds : ∀ o v, C.keeps w v → v.Answers f o → Q o v) : C.Goes a (Routine.result f) Q w :=
  goes_await fine free fun o v keeps answers => by
    cases o with
    | ok x => exact goes_done (C.sound keeps) (holds _ v keeps answers)
    | error e => exact goes_fail (C.sound keeps) (holds _ v keeps answers)

theorem goes_pause {k : Outcome → Routine α} (fine : C.fine w)
    (free : P.conduct.pauses a w → C.free w)
    (next : ∀ o v, C.keeps w v → C.Goes a (k o) Q v) : C.Goes a (.pause k) Q w := by
  intro expected
  have free := free expected
  cases own : w.current with
  | none =>
    have keeps := C.failure fine (f := .plain .runtime) rfl
    exact (next _ _ keeps).after keeps
  | some t =>
    refine ⟨C.paused fine free own, fun u o v later ground inv idle wakes => ?_⟩
    have keeps := C.woken fine free own (World.turns_paused w t) (C.active fine own).task? later ground
      inv idle wakes
    exact (next o v keeps).after keeps

/-! ## Code of any kind -/

theorem goes_any {r : Routine α} (fine : C.fine w)
    (writes : ∀ {u v}, C.keeps w u → P.conduct.writes a u v →
      P.move a u v ∧ P.Fair u v ∧ C.keeps u v)
    (calls : ∀ {u b}, C.keeps w u → P.conduct.calls a u b → P.pre a b u ∧ ∀ o v, P.lasts u v →
      v.current = u.current → P.post b u o v → C.keeps u v)
    (pauses : ∀ {u}, C.keeps w u → P.conduct.pauses a u → C.free u)
    (awaits : ∀ {u f}, C.keeps w u → P.conduct.awaits a u f → C.free u) : C.Goes a r Any w := by
  suffices goes : ∀ u, C.keeps w u → C.Goes a r Any u from goes w (C.refl fine)
  induction r with
  | done x => exact fun u keeps => goes_done (C.sound keeps) trivial
  | fail e => exact fun u keeps => goes_fail (C.sound keeps) trivial
  | read k ih => exact fun u keeps => ih u u keeps
  | write v k ih =>
    intro u keeps expected
    obtain ⟨move, fair, step⟩ := writes keeps expected
    exact ⟨move, fair, (ih v (C.trans keeps step)).after step⟩
  | call b k ih =>
    intro u keeps expected
    obtain ⟨pre, post⟩ := calls keeps expected
    refine ⟨pre, fun o v lasts current done => ?_⟩
    have step := post o v lasts current done
    exact (ih o v (C.trans keeps step)).after step
  | pause k ih =>
    exact fun u keeps => goes_pause (C.sound keeps) (pauses keeps) fun o v step =>
      ih o v (C.trans keeps step)
  | await f k ih =>
    exact fun u keeps => goes_await (C.sound keeps) (awaits keeps) fun o v step _ =>
      ih o v (C.trans keeps step)

/-- Code that stays within bounds stands up to the course. -/
theorem goes_within {B : Bounds} {r : Routine α} (fine : C.fine w)
    (writes : ∀ {u v}, C.keeps w u → B.writes u v → P.conduct.writes a u v →
      P.move a u v ∧ P.Fair u v ∧ C.keeps u v)
    (calls : ∀ {u b}, C.keeps w u → B.calls b → P.conduct.calls a u b → P.pre a b u ∧ ∀ o v,
      P.lasts u v → v.current = u.current → P.post b u o v → C.keeps u v)
    (granted : ∀ u, C.keeps w u → B.granted u) (within : r.Within B w) : C.Goes a r Any w := by
  suffices goes : ∀ u, C.keeps w u → r.Within B u → C.Goes a r Any u from
    goes w (C.refl fine) within
  clear within
  induction r with
  | done x => exact fun u keeps _ => goes_done (C.sound keeps) trivial
  | fail e => exact fun u keeps _ => goes_fail (C.sound keeps) trivial
  | read k ih => exact fun u keeps within => ih u u keeps within
  | write v k ih =>
    intro u keeps within expected
    obtain ⟨move, fair, step⟩ := writes keeps within.1 expected
    have later := C.trans keeps step
    exact ⟨move, fair, (ih v later (within.2 (granted v later))).after step⟩
  | call b k ih =>
    intro u keeps within expected
    obtain ⟨pre, post⟩ := calls keeps within.1 expected
    refine ⟨pre, fun o v lasts current done => ?_⟩
    have step := post o v lasts current done
    have later := C.trans keeps step
    exact (ih o v later (within.2 o v (granted v later))).after step
  | pause k ih => exact fun _ _ within => within.elim
  | await f k ih => exact fun _ _ within => within.elim

end Course
end Protocol
end AsyncImport
