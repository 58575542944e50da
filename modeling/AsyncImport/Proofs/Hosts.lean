import AsyncImport.Proofs.Steady

/-!
# What is done on behalf of a host

A host that behaves as expected is steady, and so is the code that calls and awaits what it has
given.
-/

namespace AsyncImport.Site

open Edit Change Protocol

variable {S : Site} {u w v : World} {host : Host} {α β : Type} {a : Option Activity}

theorem Asks.moves (asks : S.Asks w v) : S.Moves w v := by
  intro tidy
  cases asks with
  | load name parent => exact ((does_load (L := S.moving) name parent).after tidy).1
  | fetch name parent => exact ((does_fetch (L := S.moving) name parent).after tidy).1
  | register name deps factory => exact ((does_register (L := S.moving) name deps factory).after tidy).1
  | declare name deps factory => exact ((does_managerRegister (L := S.moving) name deps factory).after tidy).1
  | start live is =>
    have does := does_asFuture (S := S) (w := w) (x := .obj .coroutine _) fun c same => by
      cases same
      exact ⟨live, is⟩
    exact (does.after tidy).1

structure Free (S : Site) (a : Option Activity) (w : World) : Prop where
  step : a = none → w.current = none
  waits : S.Anchored w ∨ w.AtOnce a

theorem atOnce_functions (same : v.functions = w.functions) : v.AtOnce a ↔ w.AtOnce a := by
  unfold World.AtOnce World.MayWait
  rw [same]

theorem Free.keeps (free : S.Free a w) (keeps : S.Keeps w v) : S.Free a v where
  step is := keeps.current.trans (free.step is)
  waits := free.waits.imp keeps.anchored (atOnce_functions keeps.evolves.functions).mpr

theorem Free.fit (free : S.Free a w) (hosted : Hosted a) {b : Activity} (calls : S.Calls a w b) :
    S.Fit w b := by
  rcases calls.hosted hosted with is | is | ⟨f, args, rfl⟩
  · have anchored (waits : ¬ w.AtOnce a) : S.Anchored w := free.waits.resolve_right waits
    cases b with
    | host m xs => exact fun may => anchored fun cannot => (calls.atOnce cannot).1 m xs rfl may
    | importNames m x => exact ⟨is, anchored fun cannot => ((calls.atOnce cannot).2 m x).1 rfl⟩
    | importModule m x => exact ⟨is, anchored fun cannot => ((calls.atOnce cannot).2 m x).2 rfl⟩
    | _ => exact is.elim
  · cases b with
    | require | link | buildNow => exact is
    | compileStage => trivial
    | _ => exact is.elim
  · exact calls.permitted f args (.inl rfl)

theorem steady_hosted (hosted : Hosted a) (r : Routine α) (orderly : S.Orderly w)
    (free : S.Free a w) : S.Steady host a r w := by
  induction r generalizing w with
  | done x => exact steady_done orderly x
  | fail e => exact steady_fail orderly e
  | read k ih => exact ih _ orderly free
  | write v k ih =>
    rintro ⟨-, given, -⟩
    have moved : S.Moved w v := by
      rcases given hosted with still | ⟨asks, -⟩
      · exact moves_still still orderly.tidy
      · exact asks.moves orderly.tidy
    have keeps := moved.keeps orderly
    refine ⟨⟨orderly, keeps.orderly⟩, moved.fair, ?_⟩
    exact (ih keeps.orderly (free.keeps keeps)).after keeps
  | call b k ih =>
    intro calls
    exact ⟨⟨orderly, free.fit hosted calls⟩,
      fun o v _ _ keeps => (ih o keeps.orderly (free.keeps keeps)).after keeps⟩
  | pause k ih =>
    exact safe_pause orderly (fun may => free.waits.resolve_right may) fun o v keeps =>
      (ih o keeps.orderly (free.keeps keeps)).after keeps
  | await f k ih =>
    refine safe_await orderly (fun expected t own runs waiting other => ?_) fun o v keeps _ =>
      (ih o keeps.orderly (free.keeps keeps)).after keeps
    obtain ⟨live, aloof, may⟩ := expected hosted
    have anchored := free.waits.resolve_right may
    refine orderly.tidy.roaming own runs live waiting other (anchored t own) fun keeps => ?_
    rw [free.step (aloof keeps)] at own
    cases own

/-! ## Hooks and stages -/

def plainly : Bounds := ⟨World.Loose, fun b => ∃ f args, b = .invoke f args, fun _ => True⟩

def freely : Bounds :=
  ⟨World.Loose, fun b => (∃ f args, b = .invoke f args) ∨ ∃ v, b = .awaitValue v, fun _ => True⟩

theorem plain_plainly : plainly.Plain := ⟨(·.loose), fun f args => ⟨f, args, rfl⟩⟩

theorem roomy_freely : freely.Roomy := ⟨⟨(·.loose), fun f args => .inl ⟨f, args, rfl⟩⟩, fun v => .inr ⟨v, rfl⟩⟩

theorem moved_loose (orderly : S.Orderly w) (loose : w.Loose v) (writes : S.conduct.writes a w v) :
    S.Moved w v := moves_still (loose.still writes.1) orderly.tidy

theorem steady_plainly (orderly : S.Orderly w) {r : Routine α} (within : r.Within plainly w) :
    S.Steady host a r w := by
  refine steady_within (B := plainly) (w := w) (fun keeps => moved_loose keeps.orderly) ?_
    (fun _ _ => trivial) (.refl orderly) within
  rintro u _ - ⟨f, args, rfl⟩ calls
  exact calls.permitted f args (.inl rfl)

theorem steady_freely (orderly : S.Orderly w) (anchored : S.Anchored w)
    (inside : ∀ l n p, a = some (.fetchDraft l n p) → ∃ s, S.Inside w s) {r : Routine α}
    (within : r.Within freely w) : S.Steady host a r w := by
  refine steady_within (B := freely) (w := w) (fun keeps => moved_loose keeps.orderly) ?_
    (fun _ _ => trivial) (.refl orderly) within
  rintro u _ keeps (⟨f, args, rfl⟩ | ⟨v, rfl⟩) calls
  · exact calls.permitted f args (.inl rfl)
  · have given := calls.awaits v rfl
    unfold Awaitable at given
    split at given
    · exact ⟨keeps.anchored anchored, given⟩
    · refine ⟨keeps.anchored anchored, given.1, ?_⟩
      have is := given.2
      split at is
      · trivial
      · obtain ⟨manager, l, n, p, fetching⟩ := is
        obtain ⟨s, inside⟩ := inside l n p fetching
        exact ⟨manager, s, keeps.inside inside⟩
      · exact is
    · unfold Fit
      split <;> simp_all

/-! ## Linking -/

theorem steady_require (orderly : S.Orderly w) (name : Value) :
    S.Steady host a (Routine.perform (.require S.manager name)) w :=
  steady_perform orderly fun _ => rfl

theorem steady_dependency (orderly : S.Orderly w) (dep : Value) :
    S.Steady host a (Linker.dependency (.obj .manager S.manager) dep) w := by
  unfold Linker.dependency
  refine steady_first orderly fun m v _ run keeps => ?_
  cases run
  exact steady_require keeps.orderly dep

theorem steady_linker (orderly : S.Orderly w) (module : Value) :
    S.Steady host a (Linker.link (.obj .manager S.manager) module) w := by
  have each (deps : List Value) {v : World} (orderly : S.Orderly v) : S.Steady host a
      (deps.forM fun dep => do let _ ← Linker.dependency (.obj .manager S.manager) dep) v :=
    steady_forM orderly fun dep _ v keeps =>
      steady_bind (steady_dependency keeps.orderly dep) fun _ v keeps => steady_done keeps.orderly _
  unfold Linker.link
  split
  · next r =>
    refine steady_first orderly fun c v _ _ keeps => ?_
    refine steady_first keeps.orderly fun deps v _ _ keeps => ?_
    have last {v : World} (orderly : S.Orderly v) : S.Steady host a (do
        Manager.cache (← asManager (.obj .manager S.manager)) (.obj .module r)
        debug "linker.linked" [("module", .str c.name), ("deps", (← Edit.read r).deps)]
        return .obj .module r : Routine Value) v := by
      refine steady_first orderly fun m v _ run keeps => ?_
      cases run
      refine steady_doing keeps.orderly (does_cache _) fun _ v _ keeps _ => ?_
      refine steady_first keeps.orderly fun _ v _ _ keeps => ?_
      exact steady_first keeps.orderly fun _ v _ _ keeps => steady_done keeps.orderly _
    split
    · refine steady_bind (steady_mapM keeps.orderly fun dep _ v keeps => ?_) fun codes v keeps => ?_
      · exact steady_bind (steady_dependency keeps.orderly dep) fun x v keeps =>
          steady_quiet keeps.orderly _
      refine steady_bind (steady_perform keeps.orderly fun calls =>
        calls.permitted _ _ (.inr rfl)) fun code v keeps => ?_
      exact steady_first keeps.orderly fun _ v _ _ keeps => last keeps.orderly
    · exact steady_bind (each deps keeps.orderly) fun _ v keeps => last keeps.orderly
  · next d =>
    refine steady_first orderly fun c v _ _ keeps => ?_
    have last {v : World} (orderly : S.Orderly v) : S.Steady host a (do
        (← items c.deps).forM fun dep => do
          let _ ← Linker.dependency (.obj .manager S.manager) dep
        Manager.cache (← asManager (.obj .manager S.manager)) (.obj .draft d)
        return .obj .draft d : Routine Value) v := by
      refine steady_first orderly fun deps v _ _ keeps => ?_
      refine steady_bind (each deps keeps.orderly) fun _ v keeps => ?_
      refine steady_first keeps.orderly fun m v _ run keeps => ?_
      cases run
      exact steady_doing keeps.orderly (does_cache _) fun _ v _ keeps _ => steady_done keeps.orderly _
    split
    · exact last keeps.orderly
    · exact steady_bind (steady_raise keeps.orderly _) fun _ v keeps => last keeps.orderly
  · exact steady_raise orderly _

/-! ## Calling -/

theorem run_bindOne (p : Word) (args : List Value) :
    Parameter.bind [required p] args [] =
      if args.length = 1 then pure args else throw .typeMismatch := by
  rcases args with _ | ⟨x, _ | ⟨y, args⟩⟩ <;> simp [Parameter.bind, Parameter.takeNamed]

theorem run_bindTwo (p q : Word) (args : List Value) :
    Parameter.bind [required p, required q] args [] =
      if args.length = 2 then pure args else throw .typeMismatch := by
  rcases args with _ | ⟨x, _ | ⟨y, _ | ⟨z, args⟩⟩⟩ <;> simp [Parameter.bind, Parameter.takeNamed]

theorem steady_one (orderly : S.Orderly w) (p : Word) {f : Value → Routine Value} (args : List Value)
    (next : ∀ x v, args = [x] → S.Keeps w v → S.Steady host a (f x) v) :
    S.Steady host a ((Method.one (required p) f).call ⟨args, []⟩) w := by
  unfold Method.call Method.one
  rw [run_bindOne]
  split
  · next one =>
    obtain ⟨x, rfl⟩ := List.length_eq_one_iff.mp one
    refine steady_doing orderly (does_pure (Q := fun xs _ => xs = [x]) fun _ => rfl) fun xs v _ keeps is => ?_
    subst is
    exact next x v rfl keeps
  · exact steady_doing orderly (does_throw (Q := fun _ _ => False) _) fun _ _ _ _ never => never.elim

theorem steady_two (orderly : S.Orderly w) (p q : Word) {f : Value → Value → Routine Value}
    (args : List Value)
    (next : ∀ x y v, args = [x, y] → S.Keeps w v → S.Steady host a (f x y) v) :
    S.Steady host a ((Method.two (required p) (required q) f).call ⟨args, []⟩) w := by
  unfold Method.call Method.two
  rw [run_bindTwo]
  split
  · next two =>
    obtain ⟨x, y, rfl⟩ : ∃ x y, args = [x, y] := by
      rcases args with _ | ⟨x, _ | ⟨y, _ | ⟨z, args⟩⟩⟩ <;> simp_all
    refine steady_doing orderly (does_pure (Q := fun xs _ => xs = [x, y]) fun _ => rfl) fun xs v _ keeps is => ?_
    subst is
    exact next x y v rfl keeps
  · exact steady_doing orderly (does_throw (Q := fun _ _ => False) _) fun _ _ _ _ never => never.elim

theorem steady_later (orderly : S.Orderly w) (b : Activity) : S.Steady host a (later b) w :=
  steady_quiet orderly _

theorem steady_library {p : Procedure} {args : List Value} (orderly : S.Orderly w)
    (permitted : S.Permitted w (.library p) args) :
    S.Steady host a ((libraryMethod p).call ⟨args, []⟩) w := by
  have one (q : Word) (f : Value → Quiet Value) : S.Steady host a
      ((Method.one (required q) fun v => (f v : Routine Value)).call ⟨args, []⟩) w :=
    steady_one orderly q args fun x v _ keeps => steady_quiet keeps.orderly _
  have stage (f : Value → Value → Activity) : S.Steady host a
      ((Method.two (required .manager) (required .draft) fun m d => later (f m d)).call ⟨args, []⟩) w :=
    steady_two orderly .manager .draft args fun x y v _ keeps => steady_later keeps.orderly _
  cases p with
  | linkModule =>
    refine steady_two orderly .manager .module args fun m x v is keeps => ?_
    subst is
    obtain rfl : m = .obj .manager S.manager := by simpa [Permitted] using permitted
    exact steady_linker keeps.orderly x
  | globMatch =>
    refine steady_two orderly .value .pattern args fun x y v _ keeps => ?_
    exact steady_first keeps.orderly fun _ v _ _ keeps => steady_done keeps.orderly _
  | missingCompile =>
    exact steady_two orderly .manager .draft args fun m d v _ keeps => steady_quiet keeps.orderly _
  | defaultResolve | missingFetch | observeRegistration | observeFailure | observeLink => exact one _ _
  | transformStage | dependencyStage => exact stage _
  | _ => simp [Permitted] at permitted

theorem steady_callHost (orderly : S.Orderly w) (n : String) (args : List Value) :
    S.Steady host a (Routine.callHost n args) w := by
  unfold Routine.callHost
  refine steady_world ?_
  split
  · next s known =>
    by_cases waits : s.asynchronous = true
    · simp only [waits, if_true]
      exact steady_later orderly _
    · simp only [waits]
      refine steady_perform orderly fun _ ⟨r, same, may⟩ => ?_
      obtain rfl := Option.some.inj (known.symm.trans same)
      exact absurd may waits
  · exact steady_raise orderly _

theorem Free.atOnce (cannot : w.AtOnce a) : S.Free a w where
  step is := by
    subst is
    exact cannot.elim
  waits := .inr cannot

theorem steady_callWith {f : Value} {args : List Value} (orderly : S.Orderly w)
    (permitted : S.Permitted w f args) (bound : f.Bound → Hosted a ∧ w.AtOnce a) :
    S.Steady host a (Routine.callWith f ⟨args, []⟩) w := by
  have hosted (is : f.Bound) (r : Routine Value) : S.Steady host a r w :=
    steady_hosted (bound is).1 r orderly (.atOnce (bound is).2)
  unfold Routine.callWith
  split
  · exact steady_library orderly permitted
  · exact hosted trivial _
  · simp only [List.isEmpty_nil, if_true]
    split
    · exact steady_callHost orderly _ _
    · exact steady_quiet orderly _
    · refine steady_first orderly fun d u _ run keeps => ?_
      cases run
      exact steady_perform keeps.orderly fun _ => permitted
    · exact hosted trivial _
    · exact steady_raise orderly _

/-! ## Awaiting -/

theorem Open.fit {b : Activity} (is : S.Open b) (anchored : S.Anchored w) : S.Fit w b := by
  cases b with
  | host => exact fun _ => anchored
  | importNames | importModule => exact ⟨is, anchored⟩
  | _ => exact is.elim

theorem steady_settled {v : Value} (orderly : S.Orderly w) (fit : S.Fit w (.awaitValue v)) :
    S.Steady host a (Routine.settled v) w := by
  unfold Routine.settled Routine.awaitValue
  split
  · split
    · next f =>
      obtain ⟨anchored, aloof, live⟩ := fit
      exact steady_result orderly anchored fun _ => ⟨live, fun keeps => absurd keeps aloof⟩
    · next c =>
      obtain ⟨anchored, live, is⟩ := fit
      refine steady_first orderly fun co u _ run keeps => ?_
      cases run
      split
      · exact steady_refused keeps.orderly _
      · refine steady_first keeps.orderly fun _ v _ _ keeps => ?_
        have anchored := keeps.anchored anchored
        refine steady_perform keeps.orderly fun _ => ?_
        split at is
        · next activity => exact activity ▸ anchored
        · next activity =>
          obtain ⟨manager, s, inside⟩ := is
          exact activity ▸ ⟨anchored, manager, s, keeps.inside inside⟩
        · exact is.fit anchored
    · exact steady_raise orderly _
  · exact steady_done orderly _

end AsyncImport.Site
