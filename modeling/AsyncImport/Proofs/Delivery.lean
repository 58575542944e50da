import AsyncImport.Proofs.Provision
import AsyncImport.Proofs.Closing

/-!
# Delivering drafts

The draft of a name is fetched and its dependencies are loaded; a record in flight gives way to what
its task is given. Every activity of a loader keeps the chronicle of links.
-/

namespace AsyncImport.Desk

open Site Edit Change Protocol Protocol.Course

variable {S : Desk} {u v w : World} {host : Host} {α β : Type} {a : Option Activity}
  {scope : String → Prop}

/-! ## Requests -/

theorem chronicling_rewired (g : AsyncImport.Waits) (chronicle : S.chronicling.fine w) :
    S.chronicling.keeps w (S.rewired w g) := by
  have chronicle : S.Chronicle none w := chronicle
  have evolves := evolves_rewired (S := S.toSite) g w
  have proceeds : S.Proceeds w (S.rewired w g) :=
    .ofSame (.ofGet evolves.endures rfl fun r kind => get_rewired g r (by rintro rfl; simp at kind))
      (chronicle.stands.mono evolves) (get_rewired g S.store (by decide))
      (fun f => get_rewired g f (by decide)) rfl
  exact ⟨proceeds, chronicle.continued proceeds.toContinues⟩

theorem Chronicle.loading (chronicle : S.Chronicle none w) {s : String} {t : Ref .future}
    (loading : S.Loading w s t) : w.heap.Live t := by
  obtain ⟨label, found⟩ := loading
  obtain ⟨_, -, belongs⟩ := chronicle.filed found
  cases belongs with
  | loading live => exact live

theorem recites_fetch (telling : S.Telling w) (name parent : Value) :
    S.Recites host scope a (Loader.fetch S.loader name parent : Edit Value) (Ok Forthcoming) w := by
  refine Goes.mono (recites_edit telling (does_fetch name parent)) fun o v recounts done => ?_
  cases o with
  | error e => trivial
  | ok x =>
    obtain ⟨s, f, -, is, fetched⟩ := done
    refine ⟨f, is, ?_⟩
    cases fetched with
    | known _ _ live => exact live
    | shared _ after _ | begun _ after _ =>
      exact (Recounts.telling recounts).chronicle.loading after

theorem recites_load (telling : S.Telling w) (name parent : Value) :
    S.Recites host scope a (Loader.load S.loader name parent : Edit Value) (Ok Forthcoming) w := by
  refine Goes.mono (recites_edit telling (does_load name parent)) fun o v _ done => ?_
  cases o with
  | error e => trivial
  | ok x =>
    obtain ⟨s, f, -, is, live, -⟩ := done
    exact ⟨f, is, live⟩

section

variable (telling : S.Telling w) (empty : S.holds → ∀ s, ¬ scope s)
include telling empty

theorem recites_gathering {xs : List Value} {f : Value → Edit Value} {k : Value → Routine α}
    {Q : Except (Ref .failure) α → World → Prop} [Lenient Q]
    (requests : ∀ x v, S.Telling v → S.Recites host scope a (f x : Routine Value) (Ok Forthcoming) v)
    (next : ∀ r v, S.Recounts scope w v → S.Recites host scope a (k r) Q v) :
    S.Recites host scope a (do
      let fs ← xs.mapM fun x => (f x : Edit Value)
      let r ← Routine.result (← group fs)
      k r) Q w := by
  refine goes_bind (goes_mapM (J := fun _ => True) (R := fun _ y => Forthcoming y) telling trivial
    (fun x _ v recounts _ => (requests x v (Recounts.telling recounts)).mono
      fun o _ _ given => by cases o <;> simp_all [Ok])
    fun given recounts => given.imp fun _ => And.imp_right (Recounts.lasting recounts).endures.live)
      fun fs v recounts ⟨_, all⟩ => ?_
  have recounts : S.Recounts scope w v := recounts
  refine recites_doing recounts.telling (does_group fun y mem => ?_) fun g v later _ => ?_
  · obtain ⟨_, _, given⟩ := exists_left all mem
    exact given
  refine goes_bind (goes_result later.telling (fun _ => empty) (Q := Any) fun _ _ _ _ => trivial)
    fun r v keeps _ => next r v ((recounts.trans later).trans keeps)

theorem recites_forthcoming {x : Value} (given : Forthcoming x w) :
    S.Recites host scope a (Routine.awaitValue x) Any w := by
  obtain ⟨f, rfl, -⟩ := given
  exact goes_result telling (fun _ => empty) fun _ _ _ _ => trivial

/-! ## Importing -/

theorem recites_importModule (name : Value) :
    S.Recites host scope a (Manager.importModule S.manager name) Any w := by
  unfold Manager.importModule
  refine recites_first telling fun m v run recounts => ?_
  cases run
  rw [telling.chronicle.stands.serves]
  exact goes_bind (recites_load telling name .none) fun x v recounts given =>
    recites_forthcoming (Recounts.telling recounts) empty given

theorem recites_importNames (names : Value) :
    S.Recites host scope a (Manager.importNames S.manager names) Any w := by
  unfold Manager.importNames
  refine recites_first telling fun m v run recounts => ?_
  cases run
  rw [telling.chronicle.stands.serves]
  split
  · refine goes_bind (recites_load telling _ .none) fun x v recounts given => ?_
    exact goes_bind (recites_forthcoming (Recounts.telling recounts) empty given)
      fun module v recounts _ => goes_quiet (Recounts.telling recounts) fun _ _ _ _ => trivial
  refine recites_first telling fun items v _ recounts => ?_
  refine recites_gathering recounts.telling empty (fun n v telling => recites_load telling n .none)
    fun modules v recounts => ?_
  refine recites_first recounts.telling fun ms v _ recounts => ?_
  refine goes_bind (goes_each recounts.telling fun x _ v recounts =>
    goes_quiet (Recounts.telling recounts) fun _ _ _ _ => trivial) fun codes v recounts _ => ?_
  exact goes_quiet (Recounts.telling recounts) fun _ _ _ _ => trivial

/-! ## Fetching -/

theorem recites_loadDependencies (draft : Value) :
    S.Recites host scope a (Loader.loadDependencies S.loader draft) (Ok fun x _ => x = draft) w := by
  unfold Loader.loadDependencies
  refine recites_first telling fun d v _ recounts => ?_
  refine recites_first recounts.telling fun c v _ recounts => ?_
  refine recites_first recounts.telling fun some v _ recounts => ?_
  split
  case isFalse => exact goes_done recounts.telling rfl
  refine recites_doing recounts.telling (does_startWaiting chronicling_rewired _ _)
    fun _ v recounts _ => ?_
  have stop {u : World} (telling : S.Telling u) : S.Recites host scope a (do
      Loader.stopWaiting S.loader (← Edit.read d).name : Routine Unit) Any u := by
    refine recites_first telling fun c u _ recounts => ?_
    exact (recites_edit recounts.telling (does_stopWaiting chronicling_rewired c.name)).any
  refine goes_bind (R := Any) (goes_andThen (R := Any) ?_ (fun _ u recounts _ => ?_)
    fun e u recounts _ => ?_) fun _ u recounts _ => goes_done (Recounts.telling recounts) rfl
  · refine recites_first recounts.telling fun c u _ recounts => ?_
    refine recites_first recounts.telling fun xs u _ recounts => ?_
    exact recites_gathering recounts.telling empty (fun dep u telling => recites_fetch telling dep draft)
      fun _ u recounts => goes_done recounts.telling trivial
  · exact goes_bind (stop (Recounts.telling recounts)) fun _ u recounts _ =>
      goes_done (Recounts.telling recounts) trivial
  · exact goes_bind (stop (Recounts.telling recounts)) fun _ u recounts _ =>
      goes_fail (Recounts.telling recounts) trivial

variable (unlinking : ¬ Linking a)
include unlinking

theorem recites_pipelineDraft (draft : Value) :
    S.Recites host scope a (Loader.pipelineDraft S.loader draft) Any w := by
  unfold Loader.pipelineDraft
  refine recites_first telling fun d v _ recounts => ?_
  refine recites_first recounts.telling fun _ v _ recounts => ?_
  refine recites_first recounts.telling fun c v _ recounts => ?_
  split
  · exact goes_granted (grants_public recounts.telling rfl fun _ => empty)
  · refine recites_first recounts.telling fun loader v _ recounts => ?_
    split
    · exact recites_consulting recounts.telling unlinking empty
        (Routine.within_runPipeline roomy_tame _ _ _ trivial)
    · exact goes_raise recounts.telling

theorem recites_fetchDraft (name parent : Value) :
    S.Recites host scope a (Loader.fetchDraft S.loader name parent) Any w := by
  unfold Loader.fetchDraft
  refine recites_first telling fun loader v _ recounts => ?_
  refine goes_bind (recites_consulting recounts.telling unlinking empty
    (Routine.within_fetchStage roomy_tame _ _ _ trivial)) fun d v recounts _ => ?_
  exact recites_pipelineDraft (Recounts.telling recounts) empty unlinking _

theorem recites_dependencyStage (draft : Value) :
    S.Recites host scope a (do
      let d ← Stage.dependencies (.obj .manager S.manager) draft
      Routine.perform (.loadDependencies
        (← Edit.read (← asManager (.obj .manager S.manager))).loader (.obj .draft d))) Any w := by
  refine goes_bind (recites_consulting telling unlinking empty
    (Routine.within_dependencies roomy_tame _ _ trivial)) fun d v recounts _ => ?_
  have telling := Recounts.telling recounts
  refine recites_first telling fun m v run recounts => ?_
  cases run
  refine recites_first telling fun manager v run recounts => ?_
  cases run
  rw [telling.chronicle.stands.serves]
  exact goes_granted (grants_public telling rfl fun _ => empty)

theorem recites_transformOptions (l : Ref .loader) (options : Ref .dict) (draft : Ref .draft) :
    S.Recites host scope a (Loader.transformOptions l options draft) Any w := by
  unfold Loader.transformOptions
  refine recites_first telling fun loader v _ recounts => ?_
  refine goes_bind (recites_consulting recounts.telling unlinking empty
    (Routine.within_transformStage roomy_tame _ _ trivial)) fun d v recounts _ => ?_
  refine recites_first (Recounts.telling recounts) fun fields v _ recounts => ?_
  refine recites_first recounts.telling fun c v _ recounts => ?_
  refine recites_first recounts.telling fun _ v _ recounts => ?_
  exact goes_done recounts.telling trivial

end

/-! ## Settling -/

theorem chronicling_dropLoading (s : String) :
    S.chronicling.Does (Loader.dropLoading S.loader (.str s)) w fun _ _ => True := by
  unfold Loader.dropLoading
  refine does_fine fun chronicle => ?_
  have stands := S.chronicling.stands chronicle
  refine does_look (fun _ => run_itemIn stands .loading s) (does_look (fun _ => rfl) ?_)
  split
  · split
    · refine does_bind (R := fun _ _ => True) (does_ok (run_remove stands s) (fun chronicle => ?_)
        fun _ => trivial) fun _ _ _ _ => does_pure fun _ => trivial
      have proceeds := proceeds_removed stands (.text s)
      exact ⟨proceeds, Chronicle.continued chronicle proceeds.toContinues⟩
    · exact does_pure fun _ => trivial
  · exact does_pure fun _ => trivial

theorem chronicling_loaded {s : String} {draft : Value}
    (bears : Bears w s draft) :
    S.chronicling.Does (Loader.setItem S.loader .loaded (.str s) draft) w fun _ _ => True := by
  refine does_fine fun chronicle => does_ok (run_setItem (S.chronicling.stands chronicle) .loaded s draft)
    (fun chronicle => ?_) fun _ => trivial
  have proceeds := proceeds_recorded (p := .loaded) (Chronicle.stands chronicle) (.str s)
    fun label => .loaded bears
  exact ⟨proceeds, Chronicle.continued chronicle proceeds.toContinues⟩

section

variable (telling : S.Telling w) (empty : S.holds → ∀ s, ¬ scope s) {s : String} {work : Value}
  (works : S.Works w s work) (delivers : ∀ f, work = .obj .future f → S.Delivers w s f)
include telling empty works delivers

/-- The work for a name comes to a draft of that name. -/
theorem recites_work : S.Recites host scope a (Routine.awaitValue work)
    (Ok fun x v => Bears v s x) w := by
  cases works with
  | @fetch c parent _ activity =>
    unfold Routine.awaitValue
    refine recites_first telling fun co u run recounts => ?_
    cases run
    dsimp only
    split
    · exact goes_raised telling
    · refine recites_first telling fun _ v _ recounts => ?_
      rw [activity]
      exact recites_perform recounts.telling rfl fun _ => empty
  | @registered f draft _ =>
    obtain ⟨d, activity, named⟩ := delivers f rfl
    refine goes_result telling (fun _ => empty) fun o v recounts answers => ?_
    cases answers with
    | done status =>
      intro e is
      have lasting := Recounts.lasting recounts
      have done := (Recounts.telling recounts).chronicle.done
        (activity_endures lasting.endures activity) status
      cases done.symm.trans is
      exact lasting.named named
    | _ => trivial

/-- A record in flight gives way to what its task is given, or is dropped. -/
theorem recites_settle (markLoaded report : Bool) : S.Recites host scope a
    (Loader.settle S.loader (.str s) work markLoaded report) Any w := by
  unfold Loader.settle
  refine goes_bind (goes_andThen (Q := Ok fun x v => Bears v s x)
    (recites_work telling empty works delivers)
    (fun x v recounts bears => goes_done (Recounts.telling recounts) bears) fun e v recounts _ => ?_)
    fun draft v recounts bears => ?_
  · refine goes_bind (R := Any) (recites_doing (Recounts.telling recounts)
      (chronicling_dropLoading s) fun _ v recounts _ => ?_)
        fun _ v recounts _ => goes_fail (Recounts.telling recounts) trivial
    refine recites_first recounts.telling fun c v _ recounts => ?_
    split
    · refine recites_first recounts.telling fun m v _ recounts => ?_
      exact recites_confiding recounts.telling (Routine.within_report telling_confiding m _ _ trivial)
    · exact goes_done recounts.telling trivial
  · have last {v : World} (telling : S.Telling v) : S.Recites host scope a
        (Loader.delegate S.loader (.str s) : Routine Value) Any v :=
      goes_quiet telling fun _ _ _ _ => trivial
    have telling := Recounts.telling recounts
    split
    · exact recites_doing telling (chronicling_loaded bears) fun _ v recounts _ =>
        last recounts.telling
    · exact recites_doing telling (chronicling_dropLoading s) fun _ v recounts _ =>
        last recounts.telling

end

end AsyncImport.Desk
