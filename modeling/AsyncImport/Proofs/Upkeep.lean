import AsyncImport.Proofs.Custody

/-!
# The upkeep of the file

The work that waits: modules are built, imported and fetched, and dependencies are loaded. A task that
has a record in flight still has it whenever it waits.
-/

namespace AsyncImport.Site

open Edit Change Protocol Protocol.Course

variable {S : Site} {u v w : World} {host : Host} {α β : Type} {a : Option Activity}

/-! ## Requests -/

def Forthcoming (x : Value) (w : World) : Prop := ∃ f, x = .obj .future f ∧ w.heap.Live f

theorem Forthcoming.carried {x : Value} (given : Forthcoming x w) (carries : S.Carries w v) :
    Forthcoming x v := given.imp fun _ given => given.imp_right carries.endures.live

theorem forthcoming_fetch (name parent : Value) :
    S.filing.Does (Loader.fetch S.loader name parent) w Forthcoming :=
  (does_fetch name parent).mono fun x v keeps ⟨s, f, _, is, fetched⟩ => by
    refine ⟨f, is, ?_⟩
    cases fetched with
    | known _ _ live => exact live
    | shared _ after _ | begun _ after _ =>
      obtain ⟨_, _, _, task⟩ := (keeps.2 : S.Booked v).loading after
      exact World.task?_live (by simp [task])

theorem forthcoming_load (name parent : Value) :
    S.filing.Does (Loader.load S.loader name parent) w Forthcoming :=
  (does_load name parent).mono fun _ _ _ ⟨_, f, _, is, live, _⟩ => ⟨f, is, live⟩

theorem handles_edit {e : Edit α} {Q : α → World → Prop} (running : S.Running w)
    (does : S.filing.Does e w Q) : (S.operating host).Goes a (Routine.edit e) (Ok Q) w := by
  refine goes_edit (fun _ => filed_steps does running) fun _ _ => ?_
  have ends := (does.after running.booked).2
  cases is : (e.after w).1 with
  | ok x => exact ends x is
  | error c => trivial

theorem handles_awaiting {x : Value} (running : S.Running w) (held : S.Held w)
    (given : Forthcoming x w) : S.Handles host a (Routine.awaitValue x) w := by
  obtain ⟨f, rfl, -⟩ := given
  exact goes_result running (fun _ => held) fun _ _ _ _ => trivial

theorem handles_gathering {xs : List Value} {f : Value → Edit Value} {k : Value → Routine α}
    (running : S.Running w) (held : S.Held w)
    (requests : ∀ x v, S.filing.Does (f x) v Forthcoming)
    (next : ∀ r v, S.Carries w v → S.Handles host a (k r) v) : S.Handles host a (do
      let fs ← xs.mapM fun x => (f x : Edit Value)
      let r ← Routine.result (← group fs)
      k r) w := by
  refine goes_bind (goes_mapM (J := fun _ => True) (R := fun _ y => Forthcoming y) running trivial
    (fun x _ v carries _ => (handles_edit (Carries.running carries) (requests x v)).mono
      fun o _ _ given => by cases o <;> simp_all [Ok]) Forthcoming.carried) fun fs v carries ⟨_, all⟩ => ?_
  have carries : S.Carries w v := carries
  refine handles_filing carries.running (does_group fun y mem => ?_) fun g v later _ => ?_
  · obtain ⟨_, _, given⟩ := exists_left all mem
    exact given
  have held := later.held (carries.held held)
  refine handles_bind (goes_result later.running (fun _ => held) fun _ _ _ _ => trivial)
    fun r v keeps => next r v ((carries.trans later).trans keeps)

/-! ## Building -/

theorem handles_build (running : S.Running w) (held : S.Held w) (name : Value) :
    S.Handles host a (Loader.build S.loader name) w := by
  unfold Loader.build
  refine handles_first running fun m v _ carries => ?_
  refine handles_first carries.running fun found v _ later => ?_
  have carries := carries.trans later
  split
  · exact goes_done carries.running trivial
  refine handles_first carries.running fun item u run later => ?_
  split
  · obtain ⟨s, label, rfl, found, rfl⟩ := carries.running.booked.itemIn run
    obtain ⟨t, _, _, _, rfl, task⟩ := carries.running.booked.inFlight found
    have held := carries.held held
    refine handles_bind (goes_result carries.running (fun _ => held) fun _ _ _ _ => trivial)
      fun _ v later => ?_
    exact goes_granted (grants_public later.running rfl fun _ => later.held held)
  have carries := carries.trans later
  refine handles_bind (handles_compileTwice carries.running name) fun compiled v later => ?_
  have carries := carries.trans later
  refine handles_first carries.running fun pending v run later => ?_
  cases pending with
  | true =>
    obtain ⟨s, _, _, rfl, -, rfl⟩ := carries.running.booked.isIn run
    have start {u : World} (later : S.Carries v u) : S.Handles host a (do
        let registration ← Loader.startPending S.loader (.str s)
        let draft ← Routine.awaitValue registration
        Loader.link S.loader (.obj .module (← Module.ofDraft (← asDraft draft))) : Routine Value) u := by
      have carries := carries.trans later
      refine handles_filing carries.running (does_startPending trivial s) fun x y later given => ?_
      obtain ⟨f, t, item, rfl, -⟩ := given
      refine handles_bind (goes_result later.running (fun _ => later.held (carries.held held))
        fun _ _ _ _ => trivial) fun draft z later => ?_
      refine handles_first later.running fun d z _ later => ?_
      exact handles_first later.running fun r z _ later => handles_link later.running _
    cases compiled with
    | some module =>
      exact handles_bind (handles_invoking carries.running
        (Routine.within_reportRegistration plain.telling _ _ trivial)) fun _ u later => start later
    | none => exact start (.refl carries.running)
  | false =>
    cases compiled with
    | some module => exact handles_link later.running module
    | none => exact handles_first later.running fun text v _ later => goes_raise later.running

theorem handles_buildReported (running : S.Running w) (held : S.Held w) (name : Value) :
    S.Handles host a (Loader.buildReported S.loader name) w := by
  unfold Loader.buildReported Routine.rescue
  refine goes_andThen (R := Any) (handles_build running held name)
    (fun x v carries _ => goes_done (Carries.running carries) trivial) fun e v carries _ => ?_
  have carries : S.Carries w v := carries
  show S.Handles host a (if (v.heap.get e).ordinary then _ else _) v
  split
  · refine handles_first carries.running fun m v _ carries => ?_
    exact handles_bind (handles_invoking carries.running (Routine.within_report plain.telling m _ _ trivial))
      fun _ v carries => goes_fail carries.running trivial
  · exact goes_fail carries.running trivial

/-! ## Importing -/

theorem handles_importModule (running : S.Running w) (held : S.Held w) (name : Value) :
    S.Handles host a (Manager.importModule S.manager name) w := by
  unfold Manager.importModule
  refine handles_first running fun m v run carries => ?_
  cases run
  rw [running.booked.stands.serves]
  refine handles_filing running (forthcoming_load name .none) fun x v carries given => ?_
  exact handles_awaiting carries.running (carries.held held) given

theorem handles_importNames (running : S.Running w) (held : S.Held w) (names : Value) :
    S.Handles host a (Manager.importNames S.manager names) w := by
  unfold Manager.importNames
  refine handles_first running fun m v run carries => ?_
  cases run
  rw [running.booked.stands.serves]
  split
  · refine handles_filing running (forthcoming_load _ .none) fun x v carries given => ?_
    exact handles_bind (handles_awaiting carries.running (carries.held held) given)
      fun module v carries => goes_quiet carries.running fun _ _ _ _ => trivial
  refine handles_first running fun items v _ carries => ?_
  refine handles_gathering carries.running (carries.held held) (fun n v => forthcoming_load n .none)
    fun modules v carries => ?_
  refine handles_first carries.running fun ms v _ carries => ?_
  refine handles_bind (goes_each carries.running fun x _ v carries =>
    goes_quiet (Carries.running carries) fun _ _ _ _ => trivial) fun codes v carries => ?_
  exact goes_quiet carries.running fun _ _ _ _ => trivial

/-! ## Fetching -/

theorem handles_loadDependencies (running : S.Running w) (held : S.Held w) (draft : Value) :
    S.Handles host a (Loader.loadDependencies S.loader draft) w := by
  unfold Loader.loadDependencies
  refine handles_first running fun d v _ carries => ?_
  refine handles_first carries.running fun c v _ later => ?_
  have carries := carries.trans later
  refine handles_first carries.running fun some v _ later => ?_
  have carries := carries.trans later
  split
  case isFalse => exact goes_done carries.running trivial
  refine handles_filing carries.running (does_startWaiting filing_rewired _ _) fun _ v later _ => ?_
  have carries := carries.trans later
  have stop {u : World} (running : S.Running u) : S.Handles host a (do
      Loader.stopWaiting S.loader (← Edit.read d).name : Routine Unit) u := by
    refine handles_first running fun c u _ carries => ?_
    exact (handles_edit carries.running (does_stopWaiting filing_rewired c.name)).any
  refine handles_bind (goes_andThen (R := Any) ?_ (fun _ u carries _ => ?_) fun e u carries _ => ?_)
    fun _ u carries => goes_done carries.running trivial
  · refine handles_first carries.running fun c u _ later => ?_
    have carries := carries.trans later
    refine handles_first carries.running fun xs u _ later => ?_
    have carries := carries.trans later
    exact handles_gathering carries.running (carries.held held)
      (fun dep u => forthcoming_fetch dep draft) fun _ u carries => goes_done carries.running trivial
  · exact handles_bind (stop (Carries.running carries)) fun _ u carries =>
      goes_done carries.running trivial
  · exact handles_bind (stop (Carries.running carries)) fun _ u carries =>
      goes_fail carries.running trivial

theorem handles_pipelineDraft (running : S.Running w) (held : S.Held w) (draft : Value) :
    S.Handles host a (Loader.pipelineDraft S.loader draft) w := by
  unfold Loader.pipelineDraft
  refine handles_first running fun d v _ carries => ?_
  refine handles_first carries.running fun _ v _ later => ?_
  have carries := carries.trans later
  refine handles_first carries.running fun c v _ later => ?_
  have carries := carries.trans later
  split
  · exact goes_granted (grants_public carries.running rfl fun _ => carries.held held)
  · refine handles_first carries.running fun loader v _ later => ?_
    have carries := carries.trans later
    split
    · exact handles_consulting carries.running (carries.held held)
        (Routine.within_runPipeline roomy _ _ _ trivial)
    · exact goes_raise carries.running

theorem handles_fetchDraft (running : S.Running w) (held : S.Held w) (name parent : Value) :
    S.Handles host a (Loader.fetchDraft S.loader name parent) w := by
  unfold Loader.fetchDraft
  refine handles_first running fun loader v _ carries => ?_
  refine handles_bind (handles_consulting carries.running (carries.held held)
    (Routine.within_fetchStage roomy _ _ _ trivial)) fun d v later => ?_
  have carries := carries.trans later
  exact handles_pipelineDraft carries.running (carries.held held) _

theorem handles_dependencyStage (running : S.Running w) (held : S.Held w) (draft : Value) :
    S.Handles host a (do
      let d ← Stage.dependencies (.obj .manager S.manager) draft
      Routine.perform (.loadDependencies
        (← Edit.read (← asManager (.obj .manager S.manager))).loader (.obj .draft d))) w := by
  refine handles_bind (handles_consulting running held (Routine.within_dependencies roomy _ _ trivial))
    fun d v carries => ?_
  refine handles_first carries.running fun m v run later => ?_
  cases run
  refine handles_first carries.running fun manager v run later => ?_
  cases run
  rw [carries.running.booked.stands.serves]
  exact goes_granted (grants_public carries.running rfl fun _ => carries.held held)

theorem handles_transformOptions (running : S.Running w) (held : S.Held w) (l : Ref .loader)
    (options : Ref .dict) (draft : Ref .draft) :
    S.Handles host a (Loader.transformOptions l options draft) w := by
  unfold Loader.transformOptions
  refine handles_first running fun loader v _ carries => ?_
  refine handles_bind (handles_consulting carries.running (carries.held held)
    (Routine.within_transformStage roomy _ _ trivial)) fun d v carries => ?_
  refine handles_first carries.running fun fields v _ carries => ?_
  refine handles_first carries.running fun c v _ carries => ?_
  refine handles_first carries.running fun _ v _ carries => ?_
  exact goes_done carries.running trivial

/-! ## What anybody may ask for -/

theorem Operates.refiles (operates : S.Operates w v) (booked : S.Booked w) :
    S.Refiles w v ∧ ∀ t, w.heap.Live t → S.Lets t w v := by
  have filed {α : Type} {e : Edit α} {Q : α → World → Prop} (does : S.filing.Does e w Q) :
      S.Refiles w (e.after w).2 ∧ ∀ t, w.heap.Live t → S.Lets t w (e.after w).2 :=
    have files := (does.after booked).1.1
    ⟨Files.refiles files, fun _ live => Files.lets files live⟩
  cases operates with
  | outside is => exact ⟨is.refiles, fun t _ => is.lets t⟩
  | load name parent => exact filed (does_load name parent)
  | fetch name parent => exact filed (does_fetch name parent)
  | register name deps factory => exact filed (does_register name deps factory)
  | declare name deps factory => exact filed (does_managerRegister name deps factory)
  | release name => exact filed (does_release name)
  | take loaded =>
    obtain ⟨s, label, item, rfl, found, -⟩ := booked.isIn loaded
    exact filed (does_withdraw found (by simp))

def Waits (S : Site) (a : Option Activity) (w : World) : Prop :=
  S.Held w ∨ w.AtOnce a

theorem Waits.carried (waits : S.Waits a w) (carries : S.Carries w v) : S.Waits a v :=
  waits.imp carries.held (atOnce_functions carries.endures.functions).mpr

theorem Uses.admitted {b : Activity} (uses : S.Uses a w b) (hosted : Hosted a) : S.Admitted w b := by
  rcases uses.hosted hosted with is | ⟨f, args, rfl⟩ | ⟨x, rfl⟩
  · exact .inl is
  · exact .inr (.inl ⟨f, args, .inl rfl, uses.permitted f args (.inl rfl)⟩)
  · exact .inr (.inr ⟨x, rfl, uses.awaits x rfl⟩)

theorem handles_hosted (hosted : Hosted a) (r : Routine α) (running : S.Running w)
    (waits : S.Waits a w) : S.Handles host a r w := by
  have free {u : World} (carries : S.Carries w u) (may : ¬ u.AtOnce a) : S.Held u :=
    (waits.carried carries).resolve_right may
  refine goes_any running (fun {u v} carries operates => ?_) (fun {u b} carries uses => ?_)
    (fun carries may => free carries may) fun carries may => free carries may
  · have carries : S.Carries w u := carries
    obtain ⟨refiles, lets⟩ := (operates hosted).refiles carries.running.booked
    exact refiles.steps carries.running lets
  · have carries : S.Carries w u := carries
    have uses : S.Uses a u b := uses
    refine ⟨⟨carries.running, uses.admitted hosted, fun suspends => ?_⟩, fun _ _ _ _ done => done⟩
    exact (waits.carried carries).resolve_right fun cannot => uses.atOnce cannot suspends

theorem handles_settled {x : Value} (running : S.Running w) (held : S.Held w)
    (awaited : S.Awaited w x) : S.Handles host a (Routine.settled x) w :=
  goes_settled running held fun c u is carries => by
    have carries : S.Carries w u := carries
    obtain ⟨-, kind | ⟨y, again⟩⟩ := awaited c is
    · exact grants_public carries.running kind fun _ => carries.held held
    · rw [again]
      exact grants_await carries.running (carries.held held) y

section

variable {b : Activity} (admitted : S.Admitted w b)
include admitted

theorem Admitted.public (calls : ∀ f args, b ≠ .invoke f args ∧ b ≠ .produce f args)
    (awaits : ∀ x, b ≠ .awaitValue x) : S.Public b ∨ S.Plain b := by
  rcases admitted with is | ⟨f, args, rfl | rfl, -⟩ | ⟨x, rfl, -⟩
  · exact is
  · exact absurd rfl (calls f args).1
  · exact absurd rfl (calls f args).2
  · exact absurd rfl (awaits x)

theorem Admitted.permitted {f : Value} {args : List Value}
    (is : b = .invoke f args ∨ b = .produce f args) : S.Permitted w f args := by
  rcases admitted with common | ⟨g, xs, same, permitted⟩ | ⟨x, same, -⟩
  · rcases is with rfl | rfl <;> exact common.elim False.elim False.elim
  · rcases is with rfl | rfl <;> rcases same with same | same <;> cases same <;> exact permitted
  · rcases is with rfl | rfl <;> cases same

theorem Admitted.awaited {x : Value} (is : b = .awaitValue x) : S.Awaited w x := by
  subst is
  rcases admitted with common | ⟨f, args, same | same, -⟩ | ⟨y, same, awaited⟩
  · exact common.elim False.elim False.elim
  · cases same
  · cases same
  · cases same
    exact awaited

end

theorem handles_meaning {b : Activity} (running : S.Running w) (admitted : S.Admitted w b)
    (held : Suspends w b → S.Held w) : S.Handles host (some b) (host.meaning b) w := by
  cases b with
  | host n args =>
    refine handles_hosted (a := some (.host n args)) trivial _ running ?_
    by_cases may : w.MayWait n
    · exact .inl (held may)
    · exact .inr may
  | invoke f args =>
    exact handles_callWith running (admitted.permitted (.inl rfl)) fun bound r =>
      handles_hosted (a := some (.invoke f args)) bound r running (.inr bound)
  | produce f args =>
    exact handles_callWith running (admitted.permitted (.inr rfl)) fun bound r =>
      handles_hosted (a := some (.produce f args)) bound r running (.inr bound)
  | awaitValue x => exact handles_settled running (held trivial) (admitted.awaited rfl)
  | runStages p context payload =>
    exact handles_consulting running (held trivial) (Routine.within_runPipeline roomy _ _ _ trivial)
  | runPlugin p hook draft =>
    exact handles_consulting running (held trivial) (Routine.within_runPlugin roomy _ _ _ trivial)
  | runFanout f draft =>
    exact handles_consulting running (held trivial) (Routine.within_runFanout roomy _ _ trivial)
  | runRegistry r hook draft =>
    exact handles_consulting running (held trivial) (Routine.within_runRegistry roomy _ _ _ trivial)
  | resolveHandler r name =>
    exact handles_consulting running (held trivial) (Routine.within_resolve roomy _ _ trivial)
  | fetchStage m name parent =>
    exact handles_bind (handles_consulting running (held trivial)
      (Routine.within_fetchStage roomy _ _ _ trivial)) fun d v carries =>
        goes_done carries.running trivial
  | transformStage m draft =>
    exact handles_bind (handles_consulting running (held trivial)
      (Routine.within_transformStage roomy _ _ trivial)) fun d v carries =>
        goes_done carries.running trivial
  | dependencyStage m draft =>
    obtain rfl : m = .obj .manager S.manager := by
      simpa [Public, Plain] using admitted.public
    exact handles_dependencyStage running (held trivial) draft
  | compileStage m draft =>
    exact handles_invoking running (Routine.within_compileStage plain _ _ trivial)
  | fetchDraft l name parent =>
    obtain rfl : l = S.loader := by
      simpa [Public, Plain] using admitted.public
    exact handles_fetchDraft running (held trivial) name parent
  | pipelineDraft l draft =>
    obtain rfl : l = S.loader := by
      simpa [Public, Plain] using admitted.public
    exact handles_pipelineDraft running (held trivial) draft
  | loadDependencies l draft =>
    obtain rfl : l = S.loader := by
      simpa [Public, Plain] using admitted.public
    exact handles_loadDependencies running (held trivial) draft
  | transformOptions l options draft =>
    exact handles_transformOptions running (held trivial) l options draft
  | buildFetched l name fetching =>
    obtain ⟨rfl, f, rfl⟩ : l = S.loader ∧ ∃ f, fetching = .obj .future f := by
      simpa [Public, Plain] using admitted.public
    refine handles_bind (goes_result running (fun _ => held trivial) fun _ _ _ _ => trivial)
      fun _ v carries => ?_
    exact handles_buildReported carries.running (carries.held (held trivial)) name
  | buildReported l name =>
    obtain rfl : l = S.loader := by
      simpa [Public, Plain] using admitted.public
    exact handles_buildReported running (held trivial) name
  | build l name =>
    obtain rfl : l = S.loader := by
      simpa [Public, Plain] using admitted.public
    exact handles_build running (held trivial) name
  -- nobody but its own task settles a record
  | settle => exact (admitted.public (by simp) (by simp)).elim False.elim False.elim
  | buildNow l name =>
    obtain rfl : l = S.loader := by
      simpa [Public, Plain] using admitted.public
    exact handles_buildNow running name
  | link l module =>
    obtain rfl : l = S.loader := by
      simpa [Public, Plain] using admitted.public
    exact handles_link running module
  | importNames m names =>
    obtain rfl : m = S.manager := by
      simpa [Public, Plain] using admitted.public
    exact handles_importNames running (held trivial) names
  | importModule m name =>
    obtain rfl : m = S.manager := by
      simpa [Public, Plain] using admitted.public
    exact handles_importModule running (held trivial) name
  | require m name =>
    obtain rfl : m = S.manager := by
      simpa [Public, Plain] using admitted.public
    exact handles_managerRequire running name

end AsyncImport.Site
