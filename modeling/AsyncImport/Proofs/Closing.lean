import AsyncImport.Proofs.Upkeep

/-!
# Closing a record

A task that settles a record takes it out of flight in its last step: it is dropped when the work has
failed, and gives way to the draft when the task is about to succeed. No task leaves a record behind.
-/

namespace AsyncImport.Site

open Edit Change Protocol Protocol.Course

variable {S : Site} {u v w : World} {host : Host} {α β : Type} {a : Option Activity}
  {t : Ref .future} {s : String} {work : Value} {markLoaded report : Bool}

structure Leaves (S : Site) (t : Ref .future) (o : Except (Ref .failure) α) (w : World) : Prop where
  running : S.Running w
  own : w.current = some t
  closed : ∀ s, ¬ S.Loading w s t
  succeeds : ∀ e ∈ S.stored w, e.Ends t → ∃ x, o = .ok x

theorem Leaves.carried {o : Except (Ref .failure) α} {p : Except (Ref .failure) β}
    (leaves : S.Leaves t o w) (carries : S.Carries w v) (succeeds : ∀ x, o = .ok x → ∃ y, p = .ok y) :
    S.Leaves t p v where
  running := carries.running
  own := carries.current.trans leaves.own
  closed s loading := leaves.closed s ((carries.lets t leaves.own).loading.mp loading)
  succeeds e mem ends := by
    obtain ⟨x, is⟩ := leaves.succeeds e ((carries.lets t leaves.own).entries e mem ends) ends
    exact succeeds x is

theorem Leaves.ended {o : Outcome} (leaves : S.Leaves t o w) : S.Booked (w.ended t o) :=
  leaves.running.ended leaves.own leaves.closed leaves.succeeds

/-! ## The last step -/

section

variable (booked : S.Booked w) (loading : S.Loading w s t)
include booked loading

theorem Booked.alone {r : String} (other : S.Loading w r t) : r = s := by
  obtain ⟨_, _, _, one⟩ := booked.loading loading
  obtain ⟨_, _, _, two⟩ := booked.loading other
  simp_all

theorem closed_dropped (r : String) :
    ¬ S.Loading (S.restored w ((w.heap.get S.store).remove (.text s))) r t := by
  rintro ⟨label, found⟩
  rw [record?_removed booked.stands] at found
  split at found
  · cases found
  · next ne => exact ne (congrArg Key.text (booked.alone loading ⟨label, found⟩))

theorem closed_recorded (label item : Value) (r : String) : ¬ S.Loading
    (S.restored w ((w.heap.get S.store).set (.phase .loaded) (.text s) label item)) r t := by
  rintro ⟨other, found⟩
  rw [record?_recorded booked.stands] at found
  split at found
  · simp at found
  · next ne => exact ne (congrArg Key.text (booked.alone loading ⟨other, found⟩))

variable (own : w.current = some t)
include own

theorem refiles_dropped :
    S.Refiles w (S.restored w ((w.heap.get S.store).remove (.text s))) where
  toPassable := passable_restored booked.stands _
  filed found := by
    rw [record?_removed booked.stands] at found
    split at found
    · cases found
    · exact .inl found
  kept {r u} other := by
    by_cases same : r = s
    · subst same
      exact .inr (other.unique loading ▸ own)
    · obtain ⟨label, found⟩ := other
      refine .inl ⟨label, ?_⟩
      rwa [record?_removed booked.stands, if_neg (by simpa using same)]
  journal := ⟨[], journals_removed booked.stands _, by simp⟩

theorem refiles_recorded (label item : Value) : S.Refiles w
    (S.restored w ((w.heap.get S.store).set (.phase .loaded) (.text s) label item)) where
  toPassable := passable_restored booked.stands _
  filed found := by
    rw [record?_recorded booked.stands] at found
    split at found
    · next same =>
      cases found
      exact .inr ⟨s, same, .inr ⟨rfl, t, own, loading⟩⟩
    · exact .inl found
  kept {r u} other := by
    by_cases same : r = s
    · subst same
      exact .inr (other.unique loading ▸ own)
    · obtain ⟨label, found⟩ := other
      refine .inl ⟨label, ?_⟩
      rwa [record?_recorded booked.stands, if_neg (by simpa using same)]
  journal := by
    refine ⟨_, journals_recorded booked.stands _ _ _ _, fun e mem => .inr ⟨t, own, ?_⟩⟩
    obtain rfl := List.mem_singleton.mp mem
    obtain ⟨work, m, r, task⟩ := booked.loading loading
    refine ⟨loading, rfl, s, work, m, r, rfl, ?_⟩
    rw [get_restored _ t (by decide)]
    exact activity_of_task task

end

structure Settling (S : Site) (w : World) (t : Ref .future) (s : String) : Prop where
  running : S.Running w
  own : w.current = some t
  loading : S.Loading w s t
  entries : ∀ e ∈ S.stored w, ¬ e.Ends t

theorem Settling.carried (settling : S.Settling w t s) (carries : S.Carries w v) :
    S.Settling v t s where
  running := carries.running
  own := carries.current.trans settling.own
  loading := (carries.lets t settling.own).loading.mpr settling.loading
  entries e mem ends :=
    settling.entries e ((carries.lets t settling.own).entries e mem ends) ends

theorem safe_closing {e : Edit α} {x : α} {f : α → Routine β}
    {Q : Except (Ref .failure) β → World → Prop} (settling : S.Settling w t s) {c : Store}
    (refiles : S.Refiles w (S.restored w c)) (run : e w = (.ok x, S.restored w c))
    (next : S.Running (S.restored w c) → (S.operation host).Safe a Q (f x) (S.restored w c)) :
    (S.operation host).Safe a Q ((Routine.edit e).bind f) w := by
  refine safe_bind (Q := fun o v => o = .ok x ∧ v = S.restored w c) (safe_edit fun _ => ?_)
    (fun y v ⟨is, same⟩ => ?_) fun e v ⟨is, _⟩ => by cases is
  · rw [after_ok run]
    exact ⟨⟨settling.running, refiles⟩, refiles.fair settling.running, rfl, rfl⟩
  · cases is
    subst same
    exact next (refiles.running settling.running)

theorem safe_left {r : Routine β} {o : Except (Ref .failure) α} (leaves : S.Leaves t o w)
    {R : Except (Ref .failure) β → World → Prop} (goes : (S.operating host).Goes a r R w)
    (succeeds : ∀ p v, R p v → ∀ x, o = .ok x → ∃ y, p = .ok y) :
    (S.operation host).Safe a (fun p v => R p v ∧ S.Leaves t p v) r w :=
  Safe.mono goes fun p v ⟨carries, holds⟩ => ⟨holds, leaves.carried carries (succeeds p v holds)⟩

theorem run_delegate (stands : S.Stands w) (name : Value) :
    ∃ x v, (Loader.delegate S.loader name).run w = (.ok x, v) := by
  unfold Loader.delegate
  rw [Quiet.run_bind, run_bind, run_managerOf stands]
  exact ⟨_, _, rfl⟩

section

variable (settling : S.Settling w t s)
include settling

theorem leaves_dropped (o : Except (Ref .failure) α) (running : S.Running
      (S.restored w ((w.heap.get S.store).remove (.text s)))) :
    S.Leaves t o (S.restored w ((w.heap.get S.store).remove (.text s))) where
  running := running
  own := settling.own
  closed := closed_dropped settling.running.booked settling.loading
  succeeds e mem ends := by
    rw [stored_restored settling.running.booked.stands] at mem
    exact absurd ends (settling.entries e mem)

theorem safe_dropping (e : Ref .failure) :
    (S.operation host).Safe a (fun (o : Outcome) v => (∃ c, o = .error c) ∧ S.Leaves t o v) ((do
      Loader.dropLoading S.loader (.str s)
      if report && (← Edit.read e).ordinary then
        Manager.report (← Loader.managerOf S.loader) (.str s) (.obj .failure e) : Routine Unit).bind
          fun _ => .fail e) w := by
  have booked := settling.running.booked
  rw [Routine.bind_eq, Routine.bind_assoc]
  refine safe_closing settling (refiles_dropped booked settling.loading settling.own)
    (run_dropLoading booked.stands settling.own settling.loading) fun running => ?_
  refine safe_left (leaves_dropped settling (.error e : Outcome) running)
    (goes_bind' (R := Any) ?_ (fun _ v carries _ => goes_fail (Carries.running carries) ⟨e, rfl⟩)
      fun c _ _ _ => ⟨c, rfl⟩) fun _ _ _ x never => by cases never
  refine handles_first running fun c v _ carries => ?_
  split
  · refine handles_first carries.running fun m v _ carries => ?_
    exact handles_invoking carries.running (Routine.within_report plain.telling m _ _ trivial)
  · exact goes_done carries.running trivial

theorem safe_closed (draft : Value) :
    (S.operation host).Safe a (fun (o : Outcome) v => S.Leaves t o v) (do
      if markLoaded then Loader.setItem S.loader .loaded (.str s) draft
      else Loader.dropLoading S.loader (.str s)
      Loader.delegate S.loader (.str s) : Routine Value) w := by
  have booked := settling.running.booked
  have last {v : World} (leaves : S.Leaves t (.ok draft : Outcome) v) :
      (S.operation host).Safe a (fun (o : Outcome) v => S.Leaves t o v)
        (Loader.delegate S.loader (.str s) : Routine Value) v := by
    refine Safe.mono (safe_left leaves (R := fun o _ => ∃ x, o = .ok x)
      (goes_quiet' leaves.running (fun x _ _ _ => ⟨x, rfl⟩) fun c u run _ => ?_)
      fun _ _ holds _ _ => holds) fun _ _ => And.right
    obtain ⟨x, y, made⟩ := run_delegate leaves.running.booked.stands (.str s)
    rw [made] at run
    cases run
  split
  · have refiles := refiles_recorded booked settling.loading settling.own (.str s) draft
    refine safe_closing settling refiles (run_setItem booked.stands .loaded s draft) fun running => last ?_
    exact ⟨running, settling.own, closed_recorded booked settling.loading _ draft,
      fun _ _ _ => ⟨draft, rfl⟩⟩
  · refine safe_closing settling (refiles_dropped booked settling.loading settling.own)
      (run_dropLoading booked.stands settling.own settling.loading) fun running => last ?_
    exact leaves_dropped settling _ running

theorem safe_settling (works : S.Works w s work) :
    (S.operation host).Safe a (fun (o : Outcome) v => S.Leaves t o v)
      (Loader.settle S.loader (.str s) work markLoaded report) w := by
  have held : S.Held w := fun u own => by
    obtain rfl := Option.some.inj (settling.own.symm.trans own)
    obtain ⟨_, _, _, task⟩ := settling.running.booked.loading settling.loading
    refine ⟨fun {r x m p} activity => ?_, settling.entries⟩
    rw [activity_of_task task] at activity
    cases activity
    exact settling.loading
  have awaited : S.Handles host a (Routine.awaitValue work) w := by
    refine goes_awaitValue settling.running held fun c u is carries => ?_
    have carries : S.Carries w u := carries
    cases works with
    | fetch live activity =>
      cases is
      rw [activity]
      exact grants_public carries.running rfl fun _ => carries.held held
    | registered => cases is
  unfold Loader.settle
  refine safe_bind (Q := fun o v => match o with
      | .ok _ => S.Settling v t s
      | .error e => S.Leaves t (.error e : Outcome) v)
    (safe_andThen (fun x v done => ?_) (fun e v done => ?_) awaited)
    (fun draft v settling => safe_closed settling draft) fun e v leaves => leaves
  · exact settling.carried done.1
  · refine Safe.mono (safe_dropping (settling.carried done.1) e) fun o v ⟨⟨c, failed⟩, leaves⟩ => ?_
    subst failed
    exact leaves

end

/-! ## All tasks -/

theorem Booked.reported {g f : Ref .future} {jobs : List Job} (booked : S.Booked w)
    (idle : w.current = none) : S.Booked (Edit.report g f { w with ready := jobs }).2 := by
  have touches := World.touches_report g f { w with ready := jobs }
  have popped : w.Passes { w with ready := jobs } := World.passes_ofHeapEq rfl rfl rfl
  refine booked.scheduled idle
    ⟨popped.turns.trans touches.turns, fun f live => popped.old f (touches.old f live)⟩
    (fun t task _ => ?_) fun t own => ?_
  · have spares : World.Spares t { w with ready := jobs } _ :=
      World.spares_report (g := g) (f := f) (by exact task)
    exact ⟨spares.status, spares.origin⟩
  · rw [touches.current] at own
    simp [idle] at own

theorem Booked.popped (booked : S.Booked w) (idle : w.current = none) (jobs : List Job) :
    S.Booked { w with ready := jobs } :=
  booked.scheduled idle (World.passes_ofHeapEq rfl rfl rfl) (fun _ _ _ => .ofGet rfl)
    fun t own => by simp [idle] at own

/-- A task closes its record, if it has one, before it ends. -/
theorem operation_start {b : Activity} {jobs : List Job} (booked : S.Booked w)
    (idle : w.current = none) (task : w.task? t = some b) (unsettled : S.Unsettled w t) :
    (S.operation host).Safe (some b) (fun o v => S.Booked (v.ended t o)) (host.meaning b)
      (w.resumed t jobs) := by
  have turns := World.turns_resumed w t jobs
  have running : S.Running (w.resumed t jobs) := booked.resumed idle jobs (by simp [task])
  have same : S.Same w (w.resumed t jobs) := .ofTurns booked.stands turns
  have activity := activity_endures turns.evolves.endures (activity_of_task task)
  have mine : S.Unsettled (w.resumed t jobs) t := unsettled.lets (.ofStore same.store t) (by
    rw [activity, activity_of_task task])
  have held : S.Held (w.resumed t jobs) := fun u own => Option.some.inj own ▸ mine
  have others (admitted : S.Admitted (w.resumed t jobs) b)
      (foreign : ∀ s work m r, b ≠ .settle S.loader (.str s) work m r) :
      (S.operation host).Safe (some b) (fun o v => S.Booked (v.ended t o)) (host.meaning b)
        (w.resumed t jobs) := by
    refine Safe.mono (handles_meaning running admitted fun _ => held) fun o v ⟨carries, _⟩ => ?_
    have lets := carries.lets t rfl
    refine Leaves.ended (S := S) ⟨carries.running, carries.current, fun s loading => ?_,
      fun e mem ends => absurd ends (mine.entries e (lets.entries e mem ends))⟩
    obtain ⟨_, _, _, known⟩ := running.booked.loading (lets.loading.mp loading)
    rw [activity_of_task known] at activity
    exact foreign _ _ _ _ (Option.some.inj activity).symm
  cases booked.ours task with
  | asked is =>
    refine others (.inl (.inl is)) ?_
    rintro s work m r rfl
    exact is
  | again awaited =>
    exact others (.inr (.inr ⟨_, rfl, awaited.mono turns.evolves.endures⟩)) (by simp)
  | settle works =>
    exact Safe.mono (safe_settling ⟨running, rfl, mine.loading activity, mine.entries⟩
      (works.mono turns.evolves.endures)) fun o v leaves => leaves.ended

/-- Every task closes the record that it has in flight, whatever its host does. -/
theorem operation_lawful (S : Site) (host : Host) : (S.operation host).Lawful where
  endures lasts := lasts
  lasting := World.Endures.trans
  passing turns := turns.evolves.endures
  sparing := sparing_strict
  dropped _ booked _ task flagged _ := absurd flagged (Machine.Calm.not_flagged booked.calm task)
  trans first next stands :=
    ⟨(next (first stands).1).1, (first stands).2.trans (next (first stands).1).2⟩
  turn turns stands := ⟨stands.mono turns.evolves, .ofStore (Same.ofTurns stands turns).store _⟩
  born := by
    rintro t w v ⟨stands, unsettled⟩ later
    obtain ⟨stands, lets⟩ := later.rely stands
    exact ⟨stands, unsettled.lets lets (by simp [Future.activity?, later.spares.origin])⟩
  failure booked := booked.refiled (outside_still booked.stands (World.still_failure _ _)).refiles
  report _ booked idle _ := booked.reported idle
  idle _ booked idle _ _ := booked.popped idle _
  spec := by
    rintro - a w ⟨running, admitted, held⟩
    exact Safe.mono (handles_meaning running admitted held) fun _ _ met _ => met.1
  start := by
    rintro t a w jobs - booked idle task - - ⟨-, unsettled⟩
    exact Safe.mono (operation_start booked idle task unsettled) fun _ _ booked _ => ⟨booked, trivial⟩
  visit := by
    intro w r _ booked idle
    have held : S.Held w := fun t own => by simp [idle] at own
    exact Safe.mono (handles_hosted (a := none) trivial r ⟨booked, by simp [idle]⟩ (.inl held))
      fun _ _ met _ => (Carries.running met.1).booked

end AsyncImport.Site
