import AsyncImport.Proofs.Discipline
import Mathlib.Data.List.Forall2

/-!
# Steady routines

A routine is steady if it keeps to the protocol of a site and leaves the running task with what it
had. What a routine is made of is steady: edits that keep the loader's state in order, waiting, and
carrying out activities.
-/

namespace AsyncImport.Site

open Edit Change Protocol

variable {S : Site} {u w v : World} {host : Host} {α β : Type} {a : Option Activity}

/-! ## What the running task keeps -/

theorem Moved.orderly (moved : S.Moved w v) (orderly : S.Orderly w) : S.Orderly v where
  tidy := moved.tidy
  runs t own := by
    have runs := orderly.runs t (moved.current ▸ own)
    exact runs.ofSpares (moved.spares t runs.task?)

theorem Moved.keeps (moved : S.Moved w v) (orderly : S.Orderly w) : S.Keeps w v where
  orderly := moved.orderly orderly
  evolves := moved.evolves
  current := moved.current
  rely t own := moved.rely t (orderly.runs t own).task?

namespace Keeps

theorem refl (orderly : S.Orderly w) : S.Keeps w w := ⟨orderly, .refl w, rfl, fun t _ => .refl t w⟩

theorem trans (first : S.Keeps u w) (next : S.Keeps w v) : S.Keeps u v where
  orderly := next.orderly
  evolves := first.evolves.trans next.evolves
  current := next.current.trans first.current
  rely t own := (first.rely t own).trans (next.rely t (first.current.trans own))

variable (keeps : S.Keeps w v)
include keeps

theorem stands : S.Stands v := keeps.orderly.tidy.stands

theorem anchored (anchored : S.Anchored w) : S.Anchored v := fun t own =>
  (anchored t (keeps.current.symm.trans own)).mono keeps.evolves
    (keeps.rely t (keeps.current.symm.trans own))

theorem inside {s : String} (inside : S.Inside w s) : S.Inside v s := by
  obtain ⟨t, own, owns, idle⟩ := inside
  obtain ⟨owns, same⟩ := (keeps.rely t own).owns owns
  exact ⟨t, keeps.current.trans own, owns, same.trans idle⟩

end Keeps

theorem still_keeps (still : w.Still v) (orderly : S.Orderly w) : S.Keeps w v :=
  (moves_still still orderly.tidy).keeps orderly

theorem Moved.fair (moved : S.Moved w v) : (S.protocol host).Fair w v where
  evolves := moved.evolves
  current := moved.current
  spares := moved.spares
  rely t _ task _ := ⟨moved.tidy.stands, moved.rely t task⟩
  born t none task := ⟨⟨moved.tidy.stands, (moved.born t none task).1⟩, (moved.born t none task).2⟩

/-- A task that was set aside in a world finds what it had when it goes on. -/
theorem keeps_woken {t : Ref .future} {x : World} {o : Outcome} (orderly : S.Orderly w)
    (own : w.current = some t) (turns : w.Turns x) (task : x.task? t ≠ none)
    (later : (S.protocol host).Later t x u) (tidy : S.Tidy u) (idle : u.current = none)
    (wakes : Wakes t u o v) : S.Keeps w v := by
  have spares : World.Spares t x u := later.spares
  have task : u.task? t ≠ none := by rwa [spares.task?]
  have stands := orderly.tidy.stands.mono turns.evolves
  have before : S.Rely t w x :=
    (Same.ofTurns orderly.tidy.stands turns).rely turns.evolves t
  have rely : S.Rely t w u := before.trans (later.rely stands).2
  have resumed {y : World} {j : Job} {jobs : List Job} (still : u.Still y) (ready : u.ready = j :: jobs)
      (due : j = .step t ∨ ∃ f, j = .react (.wake t) f) : S.Keeps w (y.resumed t jobs) := by
    have moved := moves_still still tidy
    have task : y.task? t ≠ none := by rwa [(moved.spares t task).task?]
    have tidy := moved.tidy.resumed (still.current.trans idle) (still.ready.trans ready) task due
    have onward : y.Turns (y.resumed t jobs) := World.turns_resumed y t jobs
    refine ⟨⟨tidy, fun s same => ?_⟩, ?_, own.symm ▸ rfl, fun s same => ?_⟩
    · obtain rfl := Option.some.inj same
      exact World.runs_resumed jobs task
    · exact ((turns.evolves.trans later.evolves).trans moved.evolves).trans onward.evolves
    · obtain rfl := Option.some.inj (own.symm.trans same)
      have last := (Same.ofTurns moved.tidy.stands onward).rely onward.evolves t
      exact (rely.trans (moved.rely t (by assumption))).trans last
  cases wakes with
  | step ready _ => exact resumed (.refl u) ready (.inl rfl)
  | @react _ f _ _ ready _ yields =>
    cases yields with
    | done | failed => exact resumed (.refl u) ready (.inr ⟨f, rfl⟩)
    | cancelled => exact resumed (World.still_failure u _) ready (.inr ⟨f, rfl⟩)
  | cancelled _ flagged => exact absurd flagged (Machine.Calm.not_flagged tidy.calm task)

theorem done_woken {t f : Ref .future} {x : World} {o : Outcome}
    (waits : (x.heap.get t).waitsFor? = some f) (spares : World.Spares t x u)
    (calm : ¬ u.Flagged t) (wakes : Wakes t u o v) : (v.heap.get f).status ≠ .waiting := by
  have stays {y : World} {jobs : List Job} (done : (y.heap.get f).status ≠ .waiting) :
      ((y.resumed t jobs).heap.get f).status ≠ .waiting := by
    rwa [((World.passes_resumed y t jobs).follows f).status done]
  rw [← spares.waitsFor?] at waits
  cases wakes with
  | step _ free => simp [free] at waits
  | react _ for_ yields =>
    obtain rfl := Option.some.inj (waits.symm.trans for_)
    cases yields with
    | done status | failed status => exact stays (by simp [status])
    | cancelled status =>
      refine stays ?_
      rw [World.get_alloc_kind _ (by decide), status]
      simp
  | cancelled _ flagged => exact absurd flagged calm

theorem keeps_yields {f : Ref .future} {o : Outcome} (orderly : S.Orderly w)
    (yields : w.Yields f o v) : S.Keeps w v := by
  cases yields with
  | done | failed => exact .refl orderly
  | cancelled => exact still_keeps (World.still_failure w _) orderly

/-! ## Steady routines -/

def Steady (S : Site) (host : Host) (a : Option Activity) (r : Routine α) (w : World) : Prop :=
  (S.protocol host).Safe a (fun _ v => S.Keeps w v) r w

theorem Steady.after {r : Routine α} (steady : S.Steady host a r v) (keeps : S.Keeps w v) :
    (S.protocol host).Safe a (fun _ u => S.Keeps w u) r v :=
  steady.mono fun _ _ later => keeps.trans later

theorem steady_bind {r : Routine α} {f : α → Routine β} (first : S.Steady host a r w)
    (next : ∀ x v, S.Keeps w v → S.Steady host a (f x) v) : S.Steady host a (r.bind f) w :=
  safe_bind first (fun x v keeps => (next x v keeps).after keeps) fun _ _ keeps => keeps

theorem steady_andThen {r : Routine α} {f : α → Routine β} {g : Ref .failure → Routine β}
    (first : S.Steady host a r w) (value : ∀ x v, S.Keeps w v → S.Steady host a (f x) v)
    (fault : ∀ e v, S.Keeps w v → S.Steady host a (g e) v) : S.Steady host a (r.andThen f g) w :=
  safe_andThen (fun x v keeps => (value x v keeps).after keeps)
    (fun e v keeps => (fault e v keeps).after keeps) first

theorem steady_done (orderly : S.Orderly w) (x : α) : S.Steady host a (.done x) w := .refl orderly

theorem steady_fail (orderly : S.Orderly w) (e : Ref .failure) :
    S.Steady host a (.fail e : Routine α) w := .refl orderly

theorem safe_doing {e : Edit α} {f : α → Routine β} {R : α → World → Prop}
    {Q : Except (Ref .failure) β → World → Prop} (orderly : S.Orderly w) (does : S.Does e w R)
    (value : ∀ x v, S.Moved w v → S.Keeps w v → R x v → (S.protocol host).Safe a Q (f x) v)
    (fault : ∀ e v, S.Keeps w v → Q (.error e) v) :
    (S.protocol host).Safe a Q ((Routine.edit e).bind f) w := by
  obtain ⟨moved, holds⟩ := does.after orderly.tidy
  have keeps := moved.keeps orderly
  refine safe_bind (Q := fun o v => S.Moved w v ∧ S.Keeps w v ∧ ∀ x, o = .ok x → R x v)
    (safe_edit fun _ => ⟨⟨orderly, keeps.orderly⟩, moved.fair, moved, keeps, holds⟩)
    (fun x v ⟨moved, keeps, holds⟩ => value x v moved keeps (holds x rfl))
    fun e v ⟨_, keeps, _⟩ => fault e v keeps

theorem safe_look {e : Edit α} {f : α → Routine β} {x : α}
    {Q : Except (Ref .failure) β → World → Prop} (orderly : S.Orderly w) (run : e w = (.ok x, w))
    (next : (S.protocol host).Safe a Q (f x) w) :
    (S.protocol host).Safe a Q ((Routine.edit e).bind f) w := by
  refine safe_bind (Q := fun o v => o = .ok x ∧ v = w) (safe_edit fun _ => ?_)
    (fun y v ⟨is, same⟩ => ?_) fun e v ⟨is, _⟩ => by cases is
  · rw [after_ok run]
    exact ⟨⟨orderly, orderly⟩, (Moved.refl orderly.tidy).fair, rfl, rfl⟩
  · cases is
    exact same ▸ next

theorem steady_doing {e : Edit α} {f : α → Routine β} {R : α → World → Prop}
    (orderly : S.Orderly w) (does : S.Does e w R)
    (next : ∀ x v, S.Moved w v → S.Keeps w v → R x v → S.Steady host a (f x) v) :
    S.Steady host a ((Routine.edit e).bind f) w :=
  safe_doing orderly does (fun x v moved keeps holds => (next x v moved keeps holds).after keeps)
    fun _ _ keeps => keeps

theorem steady_edit {e : Edit α} {R : α → World → Prop} (orderly : S.Orderly w)
    (does : S.Does e w R) : S.Steady host a (Routine.edit e) w := by
  rw [← Routine.bind_done (Routine.edit e)]
  exact steady_doing orderly does fun x v _ keeps _ => steady_done keeps.orderly x

theorem steady_first {x : Quiet α} {f : α → Routine β} (orderly : S.Orderly w)
    (next : ∀ y v, w.Still v → x.run w = (.ok y, v) → S.Keeps w v → S.Steady host a (f y) v) :
    S.Steady host a (liftM x >>= f) w :=
  steady_doing orderly (does_quiet x) fun y v _ keeps ⟨near, run⟩ => next y v near.still run keeps

theorem steady_world {f : World → Routine β} (next : S.Steady host a (f w) w) :
    S.Steady host a (Routine.world >>= f) w := next

theorem steady_quiet (orderly : S.Orderly w) (x : Quiet α) :
    S.Steady host a (liftM x : Routine α) w := steady_edit orderly (does_quiet x)

theorem steady_raise (orderly : S.Orderly w) (f : Refusal) :
    S.Steady host a (Routine.raise f : Routine α) w := steady_edit orderly (does_throw (Q := fun _ _ => True) f.fault)

theorem steady_refused (orderly : S.Orderly w) (f : Refusal) {k : α → Routine β} :
    S.Steady host a ((Routine.raise f).bind k) w :=
  steady_doing orderly (does_throw (Q := fun _ _ => False) f.fault) fun _ _ _ _ never => never.elim

theorem steady_perform {b : Activity} (orderly : S.Orderly w) (fit : S.Calls a w b → S.Fit w b) :
    S.Steady host a (Routine.perform b) w := fun calls =>
  ⟨⟨orderly, fit calls⟩, fun o v _ _ keeps => by cases o <;> exact keeps⟩

theorem steady_mapM {xs : List α} {f : α → Routine β} (orderly : S.Orderly w)
    (each : ∀ x ∈ xs, ∀ v, S.Keeps w v → S.Steady host a (f x) v) :
    S.Steady host a (xs.mapM f) w := by
  induction xs generalizing w with
  | nil => exact steady_done orderly _
  | cons x xs ih =>
    rw [List.mapM_cons]
    refine steady_bind (each x List.mem_cons_self w (.refl orderly)) fun y v keeps => ?_
    refine steady_bind (ih keeps.orderly fun z mem u later =>
      each z (List.mem_cons_of_mem _ mem) u (keeps.trans later)) fun ys u later => ?_
    exact steady_done later.orderly _

theorem steady_forM {xs : List α} {f : α → Routine PUnit} (orderly : S.Orderly w)
    (each : ∀ x ∈ xs, ∀ v, S.Keeps w v → S.Steady host a (f x) v) :
    S.Steady host a (forM xs f) w := by
  induction xs generalizing w with
  | nil => exact steady_done orderly _
  | cons x xs ih =>
    rw [List.forM_cons]
    exact steady_bind (each x List.mem_cons_self w (.refl orderly)) fun y v keeps =>
      ih keeps.orderly fun z mem u later => each z (List.mem_cons_of_mem _ mem) u (keeps.trans later)

theorem exists_left {R : α → β → Prop} {xs : List α} {ys : List β} (all : List.Forall₂ R xs ys) {y : β}
    (mem : y ∈ ys) : ∃ x ∈ xs, R x y := by
  induction all with
  | nil => cases mem
  | @cons x z xs ys is all ih =>
    rcases List.mem_cons.mp mem with rfl | mem
    · exact ⟨x, List.mem_cons_self, is⟩
    · obtain ⟨u, known, is⟩ := ih mem
      exact ⟨u, List.mem_cons_of_mem _ known, is⟩

theorem exists_right {R : α → β → Prop} {xs : List α} {ys : List β} (all : List.Forall₂ R xs ys) {x : α}
    (mem : x ∈ xs) : ∃ y ∈ ys, R x y := exists_left (R := fun y x => R x y) all.flip mem

theorem safe_collect {xs : List α} {e : α → Edit β} {R : α → β → World → Prop}
    (orderly : S.Orderly w) (does : ∀ x ∈ xs, ∀ v, S.Moved w v → S.Does (e x) v (R x))
    (stays : ∀ {x y u v}, R x y u → S.Moved u v → R x y v) :
    (S.protocol host).Safe a (fun o v => S.Moved w v ∧
      ∀ ys, o = .ok ys → List.Forall₂ (fun x y => R x y v) xs ys)
      (xs.mapM fun x => Routine.edit (e x)) w := by
  induction xs generalizing w with
  | nil =>
    refine ⟨.refl orderly.tidy, fun ys same => ?_⟩
    cases same
    exact .nil
  | cons x xs ih =>
    rw [List.mapM_cons]
    obtain ⟨moved, holds⟩ := (does x List.mem_cons_self w (.refl orderly.tidy)).after orderly.tidy
    have orderly' := moved.orderly orderly
    refine safe_bind (Q := fun o v => S.Orderly v ∧ S.Moved w v ∧ ∀ y, o = .ok y → R x y v)
      (safe_edit fun _ => ⟨⟨orderly, orderly'⟩, moved.fair, orderly', moved, holds⟩)
      (fun y v ⟨orderly, moved, holds⟩ => ?_) fun e v ⟨_, moved, _⟩ => ⟨moved, by simp⟩
    refine safe_bind (ih orderly fun z mem u later =>
        does z (List.mem_cons_of_mem _ mem) u (moved.trans later))
      (fun ys u ⟨later, all⟩ => ?_) fun e u ⟨later, _⟩ => ⟨moved.trans later, by simp⟩
    refine ⟨moved.trans later, fun zs same => ?_⟩
    cases same
    exact .cons (stays (holds y rfl) later) (all ys rfl)

theorem safe_await {f : Ref .future} {k : Outcome → Routine α}
    {Q : Except (Ref .failure) α → World → Prop} (orderly : S.Orderly w)
    (waits : S.conduct.awaits a w f → ∀ t, w.current = some t → w.Runs t →
      (w.heap.get f).status = .waiting → t ≠ f → S.Tidy (w.awaiting t f))
    (next : ∀ o v, S.Keeps w v →
      (∀ t, w.current = some t → t ≠ f → (v.heap.get f).status ≠ .waiting) →
      (S.protocol host).Safe a Q (k o) v) :
    (S.protocol host).Safe a Q (.await f k) w := by
  intro expected
  refine ⟨fun o v yields => next o v (keeps_yields orderly yields) fun _ _ _ => ?_, fun waiting => ?_⟩
  · cases yields with
    | done status | failed status => simp [status]
    | cancelled status =>
      rw [World.get_alloc_kind _ (by decide), status]
      simp
  have failed (fault : Fault) := still_keeps (World.still_failure w fault) orderly
  cases own : w.current with
  | none => exact next _ _ (failed _) (by simp [own])
  | some t =>
    refine ⟨fun self => next _ _ (failed _) fun s same other => ?_, fun other => ?_⟩
    · obtain rfl := Option.some.inj (own.symm.trans same)
      exact absurd self other
    have runs := orderly.runs t own
    refine ⟨waits expected t own runs waiting other, fun u o v later _ tidy idle wakes => ?_⟩
    have turns := World.turns_awaiting waiting runs other
    have aside : (w.awaiting t f).task? t ≠ none := by
      obtain ⟨b, task⟩ := Option.ne_none_iff_exists'.mp runs.task?
      simp [turns.evolves.task?_some task (World.status_awaiting waiting runs other)]
    refine next o v (keeps_woken orderly own turns aside later tidy idle wakes) fun s same _ => ?_
    obtain rfl := Option.some.inj (own.symm.trans same)
    have spares : World.Spares t (w.awaiting t f) u := later.spares
    have calm : Machine.Calm u := (show S.Tidy u from tidy).calm
    exact done_woken (World.waitsFor?_awaiting waiting runs other) spares
      (calm.not_flagged (by rwa [spares.task?])) wakes

theorem steady_result {f : Ref .future} (orderly : S.Orderly w) (anchored : S.Anchored w)
    (fits : S.conduct.awaits a w f → w.heap.Live f ∧
      (S.aloof → w.current ≠ none → (w.heap.get f).status = .waiting → S.Building w f)) :
    S.Steady host a (Routine.result f) w := by
  refine safe_await orderly (fun expected t own runs waiting other => ?_) fun o v keeps _ => ?_
  · obtain ⟨live, building⟩ := fits expected
    exact orderly.tidy.roaming own runs live waiting other (anchored t own)
      fun aloof => building aloof (by simp [own]) waiting
  · cases o <;> exact keeps

theorem safe_pause {k : Outcome → Routine α} {Q : Except (Ref .failure) α → World → Prop}
    (orderly : S.Orderly w) (anchored : S.conduct.pauses a w → S.Anchored w)
    (next : ∀ o v, S.Keeps w v → (S.protocol host).Safe a Q (k o) v) :
    (S.protocol host).Safe a Q (.pause k) w := by
  intro expected
  cases own : w.current with
  | none => exact next _ _ (still_keeps (World.still_failure w _) orderly)
  | some t =>
    have runs := orderly.runs t own
    refine ⟨orderly.tidy.paused own runs (anchored expected t own), fun u o v later _ tidy idle wakes => ?_⟩
    exact next o v (keeps_woken orderly own (World.turns_paused w t) runs.task? later tidy idle wakes)

theorem steady_within {B : Bounds} {r : Routine α}
    (writes : ∀ {u v}, S.Keeps w u → B.writes u v → S.conduct.writes a u v → S.Moved u v)
    (calls : ∀ {u b}, S.Keeps w u → B.calls b → S.Calls a u b → S.Fit u b)
    (granted : ∀ u, S.Keeps w u → B.granted u) {u : World} (keeps : S.Keeps w u)
    (within : r.Within B u) : S.Steady host a r u := by
  induction r generalizing u with
  | done x => exact .refl keeps.orderly
  | fail e => exact .refl keeps.orderly
  | read k ih => exact ih _ keeps within
  | write v k ih =>
    intro expected
    have moved := writes keeps within.1 expected
    have step := moved.keeps keeps.orderly
    refine ⟨⟨keeps.orderly, step.orderly⟩, moved.fair, ?_⟩
    exact (ih (keeps.trans step) (within.2 (granted v (keeps.trans step)))).after step
  | call b k ih =>
    intro expected
    refine ⟨⟨keeps.orderly, calls keeps within.1 expected⟩, fun o v _ _ step => ?_⟩
    exact (ih o (keeps.trans step) (within.2 o v (granted v (keeps.trans step)))).after step
  | pause k ih => exact within.elim
  | await f k ih => exact within.elim

end AsyncImport.Site
