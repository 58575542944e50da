import AsyncImport.Proofs.Charter

/-!
# What is loaded is grounded

Every activity of a loader keeps to the plan: a name that has been loaded, and a module that has been
cached, depends on nothing that leads back to itself.
-/

namespace AsyncImport.Site

open Edit Change Protocol

variable {S : Site} {g : Plan} {u v w : World} {host : Host} {α β : Type} {a : Option Activity}

theorem plots_mapM {xs : List α} {f : α → Routine β} {J : World → Prop} {R : α → β → World → Prop}
    (charted : S.Charted g w) (first : J w)
    (each : ∀ x ∈ xs, ∀ v, S.Charted g v → w.Evolves v → J v →
      S.Plots g host a (f x) (fun y u => J u ∧ R x y u) v)
    (stays : ∀ {x y u v}, R x y u → u.Evolves v → R x y v) :
    S.Plots g host a (xs.mapM f) (fun ys v => J v ∧ List.Forall₂ (fun x y => R x y v) xs ys) w := by
  induction xs generalizing w with
  | nil => exact plots_done charted ⟨first, .nil⟩
  | cons x xs ih =>
    rw [List.mapM_cons]
    refine plots_bind (each x List.mem_cons_self w charted (.refl w) first)
      fun y v charted evolves ⟨still, is⟩ => ?_
    refine plots_bind (ih charted still fun z mem u charted later =>
      each z (List.mem_cons_of_mem _ mem) u charted (evolves.trans later))
        fun ys u charted later ⟨still, all⟩ => ?_
    exact plots_done charted ⟨still, .cons (stays is later) all⟩

theorem plots_each {xs : List α} {f : α → Routine β} (charted : S.Charted g w)
    (each : ∀ x ∈ xs, ∀ v, S.Charted g v → S.Plots g host a (f x) (fun _ _ => True) v) :
    S.Plots g host a (xs.mapM f) (fun _ _ => True) w :=
  (plots_mapM (J := fun _ => True) (R := fun _ _ _ => True) charted trivial
    (fun x mem v charted _ _ => (each x mem v charted).mono fun _ _ _ _ _ => ⟨trivial, trivial⟩)
      fun _ _ => trivial).mono fun _ _ _ _ _ => trivial

theorem plots_forM {xs : List α} {f : α → Routine PUnit} (charted : S.Charted g w)
    (each : ∀ x ∈ xs, ∀ v, S.Charted g v → S.Plots g host a (f x) (fun _ _ => True) v) :
    S.Plots g host a (forM xs f) (fun _ _ => True) w := by
  induction xs generalizing w with
  | nil => exact plots_done charted trivial
  | cons x xs ih =>
    rw [List.forM_cons]
    exact plots_bind (each x List.mem_cons_self w charted) fun _ v charted _ _ =>
      ih charted fun z mem => each z (List.mem_cons_of_mem _ mem)

theorem plots_carry {b : Activity} (charted : S.Charted g w)
    (other : ∀ args, b ≠ .invoke (.library .linkModule) args) :
    S.Plots g host a (Routine.perform b) (fun x v => Result g v b x) w :=
  plots_perform charted fun _ _ _ is => absurd is (other _)

/-! ## Linking -/

theorem plots_dependency (charted : S.Charted g w) (dep : Value) :
    S.Plots g host a (Linker.dependency (.obj .manager S.manager) dep) (fun _ _ => True) w := by
  unfold Linker.dependency
  refine plots_first charted fun m v run charted _ => ?_
  cases run
  exact (plots_carry charted (by simp)).mono fun _ _ _ _ _ => trivial

theorem name_kept (evolves : w.Evolves v) {r : Ref .module} (live : w.heap.Live r) :
    (v.heap.get r).name = (w.heap.get r).name := evolves.follows r live

theorem plots_linker (charted : S.Charted g w) (module : Value)
    (vetted : Vetted g w module) :
    S.Plots g host a (Linker.link (.obj .manager S.manager) module) (fun _ _ => True) w := by
  have each (deps : List Value) {v : World} (charted : S.Charted g v) : S.Plots g host a
      (deps.forM fun dep => do let _ ← Linker.dependency (.obj .manager S.manager) dep)
        (fun _ _ => True) v :=
    plots_forM charted fun dep _ v charted =>
      plots_bind (plots_dependency charted dep) fun _ v charted _ _ => plots_done charted trivial
  unfold Linker.link
  split
  · next r =>
    obtain ⟨live, grounded⟩ := vetted r rfl
    refine plots_first charted fun c v _ charted evolves => ?_
    refine plots_first charted fun deps v _ charted later => ?_
    have evolves := evolves.trans later
    -- however the code was made, the module is cached in the end, under the name that it had at first
    have last {v : World} (charted : S.Charted g v) (evolves : w.Evolves v) : S.Plots g host a (do
        Manager.cache (← asManager (.obj .manager S.manager)) (.obj .module r)
        debug "linker.linked" [("module", .str c.name), ("deps", (← Edit.read r).deps)]
        return .obj .module r : Routine Value) (fun _ _ => True) v := by
      refine plots_first charted fun m v run charted later => ?_
      cases run
      have kept := name_kept evolves live
      refine plots_doing charted (fun _ _ => draws_cached (kept ▸ grounded))
        fun _ v _ _ _ _ charted _ => ?_
      refine plots_first charted fun _ v _ charted _ => ?_
      exact plots_first charted fun _ v _ charted _ => plots_done charted trivial
    split
    · refine plots_bind (plots_each charted fun dep _ v charted => ?_) fun codes v charted later _ => ?_
      · exact plots_bind (plots_dependency charted dep) fun x v charted _ _ =>
          plots_quiet charted fun _ _ _ _ _ => trivial
      have evolves := evolves.trans later
      refine plots_bind (plots_carry charted (by simp)) fun code v charted later _ => ?_
      have evolves := evolves.trans later
      exact plots_first charted fun _ v _ charted later => last charted (evolves.trans later)
    · exact plots_bind (each deps charted) fun _ v charted later _ => last charted (evolves.trans later)
  · next d =>
    refine plots_first charted fun c v _ charted _ => ?_
    have last {v : World} (charted : S.Charted g v) : S.Plots g host a (do
        (← items c.deps).forM fun dep => do
          let _ ← Linker.dependency (.obj .manager S.manager) dep
        Manager.cache (← asManager (.obj .manager S.manager)) (.obj .draft d)
        return .obj .draft d : Routine Value) (fun _ _ => True) v := by
      refine plots_first charted fun deps v _ charted _ => ?_
      refine plots_bind (each deps charted) fun _ v charted _ _ => ?_
      refine plots_first charted fun m v run charted _ => ?_
      cases run
      exact plots_doing charted (fun _ _ => draws_uncached (by simp) v) fun _ v _ _ _ _ charted _ =>
        plots_done charted trivial
    split
    · exact last charted
    · exact plots_bind (plots_raise (Q := fun _ _ => False) charted _) fun _ _ _ _ never => never.elim
  · exact plots_raise charted _

/-! ## Calling -/

theorem plots_one (charted : S.Charted g w) (p : Word) {f : Value → Routine Value} (args : List Value)
    {Q : Value → World → Prop}
    (next : ∀ x, args = [x] → S.Plots g host a (f x) Q w) :
    S.Plots g host a ((Method.one (required p) f).call ⟨args, []⟩) Q w := by
  unfold Method.call Method.one
  rw [run_bindOne]
  split
  · next one =>
    obtain ⟨x, rfl⟩ := List.length_eq_one_iff.mp one
    refine plots_doing charted (fun _ _ => draws_pure [x] w) fun xs v run _ _ _ _ _ => ?_
    cases run
    exact next x rfl
  · exact plots_doing charted (fun _ _ => draws_throw rfl w) fun xs v run _ _ _ _ _ => by
      change (throw Fault.typeMismatch : Edit (List Value)) w = _ at run
      rw [run_throw] at run
      cases run

theorem plots_two (charted : S.Charted g w) (p q : Word) {f : Value → Value → Routine Value}
    (args : List Value) {Q : Value → World → Prop}
    (next : ∀ x y, args = [x, y] → S.Plots g host a (f x y) Q w) :
    S.Plots g host a ((Method.two (required p) (required q) f).call ⟨args, []⟩) Q w := by
  unfold Method.call Method.two
  rw [run_bindTwo]
  split
  · next two =>
    obtain ⟨x, y, rfl⟩ : ∃ x y, args = [x, y] := by
      rcases args with _ | ⟨x, _ | ⟨y, _ | ⟨z, args⟩⟩⟩ <;> simp_all
    refine plots_doing charted (fun _ _ => draws_pure [x, y] w) fun xs v run _ _ _ _ _ => ?_
    cases run
    exact next x y rfl
  · exact plots_doing charted (fun _ _ => draws_throw rfl w) fun xs v run _ _ _ _ _ => by
      change (throw Fault.typeMismatch : Edit (List Value)) w = _ at run
      rw [run_throw] at run
      cases run

theorem plots_raised {f : Refusal} {k : α → Routine β} {Q : β → World → Prop}
    (charted : S.Charted g w) : S.Plots g host a ((Routine.raise f).bind k) Q w :=
  plots_bind (plots_raise (Q := fun _ _ => False) charted f) fun _ _ _ _ never => never.elim

theorem plots_world {f : World → Routine β} {Q : β → World → Prop}
    (next : S.Plots g host a (f w) Q w) : S.Plots g host a (Routine.world >>= f) Q w := next

theorem plots_later {b : Activity} (charted : S.Charted g w) :
    S.Plots g host a (later b) (fun x v => ∃ c, x = .obj .coroutine c ∧ v.heap.Live c ∧
      (v.heap.get c).activity = b) w :=
  plots_quiet charted fun x v run _ _ => by
    obtain ⟨c, u, new, run⟩ := ok_of_bind run
    obtain ⟨live, is⟩ := made new
    cases run
    exact ⟨c, rfl, live, by rw [is]⟩

theorem plots_library {p : Procedure} {args : List Value} (charted : S.Charted g w)
    (permitted : S.Permitted w (.library p) args)
    (vetted : p = .linkModule → ∀ m x, args = [m, x] → Vetted g w x) :
    S.Plots g host a ((libraryMethod p).call ⟨args, []⟩)
      (fun x v => Result g v (.invoke (.library p) args) x) w := by
  have one (q : Word) (f : Value → Quiet Value) : S.Plots g host a
      ((Method.one (required q) fun v => (f v : Routine Value)).call ⟨args, []⟩) (fun _ _ => True) w :=
    plots_one charted q args fun x _ => plots_quiet charted fun _ _ _ _ _ => trivial
  cases p with
  | linkModule =>
    refine plots_two charted .manager .module args fun m x is => ?_
    subst is
    obtain rfl : m = .obj .manager S.manager := by simpa [Permitted] using permitted
    exact plots_linker charted x (vetted rfl _ x rfl)
  | globMatch =>
    refine plots_two charted .value .pattern args fun x y _ => ?_
    exact plots_first charted fun _ v _ charted _ => plots_done charted trivial
  | missingCompile =>
    exact plots_two charted .manager .draft args fun m d _ =>
      plots_quiet charted fun _ _ _ _ _ => trivial
  | defaultResolve | missingFetch | observeRegistration | observeFailure | observeLink => exact one _ _
  | transformStage =>
    refine plots_two charted .manager .draft args fun m d _ => ?_
    exact (plots_later charted).mono fun _ _ _ _ _ => trivial
  | dependencyStage =>
    refine plots_two charted .manager .draft args fun m d _ => ?_
    refine (plots_later charted).mono fun x v _ _ made => ?_
    obtain ⟨c, is, live, activity⟩ := made
    exact ⟨c, m, d, is, live, activity⟩
  | _ => simp [Permitted] at permitted

theorem plots_callHost (charted : S.Charted g w) (n : String) (args : List Value) :
    S.Plots g host a (Routine.callHost n args) (fun _ _ => True) w := by
  unfold Routine.callHost
  refine plots_world ?_
  split
  · split
    · exact (plots_later charted).mono fun _ _ _ _ _ => trivial
    · exact (plots_carry charted (by simp)).mono fun _ _ _ _ _ => trivial
  · exact plots_raise charted _

theorem plots_callWith {f : Value} {args : List Value} (charted : S.Charted g w)
    (permitted : S.Permitted w f args)
    (bound : f.Bound → Hosted a)
    (vetted : f = .library .linkModule → ∀ m x, args = [m, x] → Vetted g w x) :
    S.Plots g host a (Routine.callWith f ⟨args, []⟩) (fun x v => Result g v (.invoke f args) x) w := by
  unfold Routine.callWith
  split
  · exact plots_library charted permitted fun is => vetted (by rw [is])
  · exact (plots_hosted (bound trivial) _ charted).mono fun _ _ _ _ _ => trivial
  · simp only [List.isEmpty_nil, if_true]
    split
    · exact (plots_callHost charted _ _).mono fun _ _ _ _ _ => trivial
    · exact plots_quiet charted fun _ _ _ _ _ => trivial
    · refine plots_first charted fun d u _ charted _ => ?_
      exact (plots_carry charted (by simp)).mono fun _ _ _ _ _ => trivial
    · exact (plots_hosted (bound trivial) _ charted).mono fun _ _ _ _ _ => trivial
    · exact plots_raise charted _

/-! ## Awaiting -/

theorem plots_awaitValue {v : Value} (charted : S.Charted g w) (unlinking : ¬ Linking a) :
    S.Plots g host a (Routine.awaitValue v) (fun x u => ∀ c : Ref .coroutine,
      v = .obj .coroutine c → w.heap.Live c → Result g u (w.heap.get c).activity x) w := by
  unfold Routine.awaitValue
  split
  · exact (plots_result charted).mono fun _ _ _ _ _ => by simp
  · next c =>
    refine plots_first charted fun co u run charted evolves => ?_
    cases run
    split
    · exact plots_raised charted
    · refine plots_first charted fun _ v _ charted _ => ?_
      refine (plots_perform charted fun calls _ _ is => absurd (calls.2.1 _ is) unlinking).mono ?_
      intro x y _ _ result e same _
      cases same
      exact result
  · exact plots_raise charted _

theorem plots_settled {v : Value} (charted : S.Charted g w)
    (live : ∀ c, v = .obj .coroutine c → w.heap.Live c) :
    S.Plots g host (some (.awaitValue v)) (Routine.settled v)
      (fun x u => Result g u (.awaitValue v) x) w := by
  unfold Routine.settled
  split
  · refine (plots_awaitValue charted (show ¬ Linking (some (.awaitValue v)) from id)).mono ?_
    intro x u _ evolves result
    by_cases is : ∃ c, v = .obj .coroutine c
    · obtain ⟨c, rfl⟩ := is
      have live := live c rfl
      refine ⟨evolves.live live, fun m d activity => ?_⟩
      rw [activity_kept evolves live] at activity
      have result := result c rfl live
      rwa [activity] at result
    · unfold Result
      split <;> simp_all
  · next other =>
    refine plots_done charted ?_
    unfold Result
    split <;> simp_all [Value.isAwaitable]

/-! ## Building -/

theorem vetted_mono {x : Value} (vetted : Vetted g w x) (evolves : w.Evolves v) : Vetted g v x :=
  fun r is => by
    obtain ⟨live, grounded⟩ := vetted r is
    exact ⟨evolves.live live, name_kept evolves live ▸ grounded⟩

theorem plots_compile (charted : S.Charted g w) (name : Value) :
    S.Plots g host a (Loader.compile S.loader name) (fun x v => Vetted g v x) w := by
  unfold Loader.compile
  refine plots_doing charted (fun _ _ => draws_quiet _ w) fun loaded v run _ orderly _ charted' _ => ?_
  cases loaded with
  | true =>
    obtain ⟨s, label, item, rfl, found, rfl⟩ := isIn_true orderly.tidy run
    obtain ⟨-, d, rfl, sure⟩ := charted.loaded found
    refine plots_doing charted (fun _ _ => draws_remove s _)
      fun draft u removed _ _ _ charted evolves => ?_
    obtain rfl : draft = .obj .draft d := (does_remove found).holds orderly.tidy removed
    refine plots_first charted fun loader u _ charted later => ?_
    have sure := sure.mono (evolves.trans later)
    refine (plots_carry charted (by simp)).mono fun x v charted evolves result r is => ?_
    obtain ⟨live, named⟩ := result r is
    obtain ⟨n, same, grounded⟩ := sure.mono evolves
    obtain rfl : n = _ := by simpa using same.symm.trans named
    exact ⟨live, grounded⟩
  | false =>
    refine plots_first charted' fun m v _ charted _ => ?_
    refine plots_first charted fun known v _ charted _ => ?_
    cases known <;>
      exact plots_first charted fun text v _ charted _ => plots_raise charted _

theorem plots_managerLink {module : Value} (charted : S.Charted g w) (vetted : Vetted g w module) :
    S.Plots g host a (Manager.link S.manager module) (fun _ _ => True) w := by
  unfold Manager.link
  refine plots_first charted fun m v _ charted evolves => ?_
  refine plots_bind (plots_perform charted fun _ _ x is => ?_) fun linked v charted _ _ => ?_
  · obtain ⟨-, -, rfl⟩ : _ ∧ _ ∧ module = x := by simpa using is
    exact vetted_mono vetted evolves
  · split <;> exact plots_done charted trivial

theorem plots_report (charted : S.Charted g w) (m : Ref .manager) (name error : Value) :
    S.Plots g host a (Manager.report m name error) (fun _ _ => True) w :=
  plots_outward charted (Routine.within_report (telling_outward a) m name error trivial)

theorem plots_reportRegistration (charted : S.Charted g w) (m : Ref .manager) (name : Value) :
    S.Plots g host a (Manager.reportRegistration m name) (fun _ _ => True) w :=
  plots_outward charted (Routine.within_reportRegistration (telling_outward a) m name trivial)

theorem plots_link {module : Value} (charted : S.Charted g w) (vetted : Vetted g w module) :
    S.Plots g host a (Loader.link S.loader module) (fun _ _ => True) w := by
  unfold Loader.link
  split
  · next r =>
    refine plots_first charted fun c v _ charted evolves => ?_
    have stands := charted.stands
    refine plots_first charted fun m v run charted later => ?_
    rw [run_managerOf stands] at run
    cases run
    have evolves := evolves.trans later
    refine plots_first charted fun pending v _ charted later => ?_
    have evolves := evolves.trans later
    have last {v : World} (charted : S.Charted g v) (evolves : w.Evolves v) : S.Plots g host a (do
        let linked ← Manager.link S.manager (.obj .module r)
        Bus.emitOn (← Edit.read S.manager).events (.str Event.link) (.linked (← nameOf linked))
        return linked : Routine Value) (fun _ _ => True) v := by
      refine plots_bind (plots_managerLink charted (vetted_mono vetted evolves))
        fun linked v charted _ _ => ?_
      refine plots_first charted fun manager v _ charted _ => ?_
      refine plots_first charted fun name v _ charted _ => ?_
      exact plots_bind (plots_outward charted (Routine.within_emitOn (telling_outward a) _ _ _
        (fun _ _ => .announced _ _) trivial))
        fun _ v charted _ _ => plots_done charted trivial
    cases pending with
    | true =>
      exact plots_bind (plots_reportRegistration charted _ _) fun _ v charted later _ =>
        last charted (evolves.trans later)
    | false => exact last charted evolves
  · exact plots_first charted fun text v _ charted _ => plots_raise charted _

theorem plots_buildNow (charted : S.Charted g w) (name : Value) :
    S.Plots g host a (Loader.buildNow S.loader name) (fun _ _ => True) w :=
  plots_bind (plots_compile charted name) fun _ _ charted _ vetted => plots_link charted vetted

theorem plots_require (charted : S.Charted g w) (name : Value) :
    S.Plots g host a (Manager.require S.manager name) (fun _ _ => True) w := by
  unfold Manager.require
  refine plots_first charted fun found v _ charted _ => ?_
  cases found with
  | some module => exact plots_done charted trivial
  | none =>
    refine plots_first charted fun m v run charted' _ => ?_
    cases run
    rw [charted.stands.serves]
    refine plots_first charted fun loaded v _ charted _ => ?_
    cases loaded with
    | true => exact plots_buildNow charted name
    | false => exact plots_first charted fun text v _ charted _ => plots_raise charted _

theorem plots_compileTwice (charted : S.Charted g w) (name : Value) :
    S.Plots g host a (Loader.compileTwice S.loader name)
      (fun x v => ∀ y, x = some y → Vetted g v y) w := by
  unfold Loader.compileTwice
  refine plots_first charted fun loaded v _ charted _ => ?_
  cases loaded with
  | true =>
    refine plots_bind (plots_compile charted name) fun _ v charted _ vetted => ?_
    refine plots_first charted fun loaded v _ charted evolves => ?_
    have vetted := vetted_mono vetted evolves
    cases loaded with
    | true =>
      refine plots_first charted fun _ v _ charted _ => ?_
      refine plots_bind (plots_compile charted name) fun module v charted _ vetted => ?_
      exact plots_done charted fun x is => by cases is; exact vetted
    | false => exact plots_done charted fun x is => by cases is; exact vetted
  | false => exact plots_done charted (by simp)

theorem named_module {name : Value} {o : Module.Options} {r : Ref .module}
    (run : (Module.create name o).run w = (.ok r, v)) :
    v.heap.Live r ∧ name = .str (v.heap.get r).name := by
  unfold Module.create at run
  split at run
  · next s =>
    dsimp only at run
    split at run
    · obtain ⟨_, u, never, -⟩ := ok_of_bind run
      cases never
    · obtain ⟨format, u, -, run⟩ := ok_of_bind run
      split at run <;> obtain ⟨items, u, -, run⟩ := ok_of_bind run <;>
        obtain ⟨deps, u, -, run⟩ := ok_of_bind run <;>
        obtain ⟨truth, u, -, run⟩ := ok_of_bind run <;> split at run <;>
        obtain ⟨dict, u, -, run⟩ := ok_of_bind run <;>
        obtain ⟨settings, u, -, run⟩ := ok_of_bind run <;>
        obtain ⟨live, is⟩ := made run <;>
        exact ⟨live, by rw [is]⟩
  · cases run

theorem named_ofDraft {d : Ref .draft} {r : Ref .module}
    (run : (Module.ofDraft d).run w = (.ok r, v)) :
    v.heap.Live r ∧ (w.heap.get d).name = .str (v.heap.get r).name := by
  unfold Module.ofDraft at run
  obtain ⟨c, u, read, run⟩ := ok_of_bind run
  cases read
  obtain ⟨options, u, -, run⟩ := ok_of_bind run
  obtain ⟨settings, u, -, run⟩ := ok_of_bind run
  exact named_module run

theorem plots_registered (charted : S.Charted g w) (s : String) :
    S.Plots g host a (do
      let registration ← Loader.startPending S.loader (.str s)
      let draft ← Routine.awaitValue registration
      Loader.link S.loader (.obj .module (← Module.ofDraft (← asDraft draft))) : Routine Value)
        (fun _ _ => True) w := by
  refine plots_doing charted (fun _ _ => draws_startPending s w)
    fun registration v run _ orderly _ charted _ => ?_
  obtain ⟨f, t, rfl, ⟨d, activity, -⟩, -⟩ := (does_takeUp s).holds orderly.tidy run
  refine plots_bind (plots_result charted) fun draft u charted evolves status => ?_
  obtain ⟨-, e, rfl, sure⟩ := charted.done (activity_mono evolves activity) status
  refine plots_first charted fun e v run charted later => ?_
  cases run
  refine plots_first charted fun r y run charted _ => ?_
  obtain ⟨live, named⟩ := named_ofDraft run
  refine plots_link charted fun q same => ?_
  cases same
  obtain ⟨n, same, grounded⟩ := sure
  obtain rfl : n = _ := by simpa using same.symm.trans named
  exact ⟨live, grounded⟩

theorem plots_build (charted : S.Charted g w) (s : String) :
    S.Plots g host a (Loader.build S.loader (.str s)) (fun _ _ => True) w := by
  unfold Loader.build
  have stands := charted.stands
  refine plots_first charted fun m v run charted _ => ?_
  rw [run_managerOf stands] at run
  cases run
  refine plots_first charted fun found v run charted _ => ?_
  rw [run_find] at run
  cases run
  split
  · exact plots_done charted trivial
  refine plots_doing charted (fun _ _ => draws_quiet _ _) fun item v run _ orderly _ charted _ => ?_
  change (Loader.itemIn S.loader .loading (.str s)).run _ = _ at run
  rw [run_itemIn orderly.tidy.stands] at run
  cases run
  split
  · next known =>
    obtain ⟨label, found⟩ := get?_eq_some.mp known
    obtain ⟨f, work, rfl, -⟩ := orderly.tidy.inFlight found
    refine plots_bind (plots_result charted) fun _ v charted _ _ => ?_
    exact (plots_carry charted (by simp)).mono fun _ _ _ _ _ => trivial
  refine plots_bind (plots_compileTwice charted _) fun compiled v charted _ vetted => ?_
  refine plots_first charted fun pending u _ charted evolves => ?_
  cases pending with
  | true =>
    cases compiled with
    | some module =>
      exact plots_bind (plots_reportRegistration charted _ _) fun _ y charted _ _ =>
        plots_registered charted s
    | none => exact plots_registered charted s
  | false =>
    cases compiled with
    | some module => exact plots_link charted (vetted_mono (vetted module rfl) evolves)
    | none => exact plots_first charted fun text v _ charted _ => plots_raise charted _

theorem plots_buildReported (charted : S.Charted g w) (s : String) :
    S.Plots g host a (Loader.buildReported S.loader (.str s)) (fun _ _ => True) w := by
  unfold Loader.buildReported Routine.rescue
  refine plots_andThen (plots_build charted s) (fun x v charted _ _ => plots_done charted trivial)
    fun e v charted _ => ?_
  show S.Plots g host a (if (v.heap.get e).ordinary then _ else _) _ v
  split
  · refine plots_first charted fun m v _ charted _ => ?_
    exact plots_bind (plots_report charted m _ _) fun _ v charted _ _ => plots_fail charted e
  · exact plots_fail charted e

theorem plots_buildFetched (charted : S.Charted g w) (s : String) (f : Ref .future) :
    S.Plots g host a (Loader.buildFetched S.loader (.str s) (.obj .future f)) (fun _ _ => True) w :=
  plots_bind (plots_result charted) fun _ _ charted _ _ => plots_buildReported charted s

/-! ## Importing -/

theorem plots_importModule (charted : S.Charted g w) (unlinking : ¬ Linking a) (name : Value) :
    S.Plots g host a (Manager.importModule S.manager name) (fun _ _ => True) w := by
  unfold Manager.importModule
  refine plots_first charted fun m v run charted _ => ?_
  cases run
  rw [charted.stands.serves]
  refine plots_doing charted (fun _ _ => draws_load name _) fun x v _ _ _ _ charted _ => ?_
  exact (plots_awaitValue charted unlinking).mono fun _ _ _ _ _ => trivial

theorem plots_importNames (charted : S.Charted g w) (unlinking : ¬ Linking a) (names : Value) :
    S.Plots g host a (Manager.importNames S.manager names) (fun _ _ => True) w := by
  unfold Manager.importNames
  refine plots_first charted fun m v run charted _ => ?_
  cases run
  rw [charted.stands.serves]
  split
  · refine plots_doing charted (fun _ _ => draws_load _ _) fun x v _ _ _ _ charted _ => ?_
    exact plots_bind (plots_awaitValue charted unlinking) fun module v charted _ _ =>
      plots_quiet charted fun _ _ _ _ _ => trivial
  refine plots_first charted fun items v _ charted _ => ?_
  refine plots_bind (plots_mapM (J := fun _ => True)
      (R := fun _ x v => ∃ f, x = .obj .future f ∧ v.heap.Live f) charted trivial
      (fun n _ v charted _ _ => plots_edit charted (fun _ _ => draws_load n v)
        fun x u run orderly _ _ => by
        obtain ⟨f, is, live, -⟩ := (does_request n).holds orderly.tidy run
        exact ⟨trivial, f, is, live⟩)
      fun is evolves => is.imp fun _ ⟨same, live⟩ => ⟨same, evolves.live live⟩)
        fun loads v charted _ ⟨_, all⟩ => ?_
  refine plots_doing charted (fun _ orderly => draws_group orderly fun x mem => ?_)
    fun m v _ _ _ _ charted _ => ?_
  · obtain ⟨_, -, is⟩ := exists_left all mem
    exact is
  refine plots_bind (plots_result charted) fun modules v charted _ _ => ?_
  refine plots_first charted fun ms v _ charted _ => ?_
  exact plots_bind (plots_each charted fun x _ v charted => plots_quiet charted fun _ _ _ _ _ => trivial)
    fun codes v charted _ _ => plots_quiet charted fun _ _ _ _ _ => trivial

end AsyncImport.Site
