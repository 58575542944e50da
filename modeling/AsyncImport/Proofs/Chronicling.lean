import AsyncImport.Proofs.Delivery

/-!
# Keeping the chronicle

Whatever a host does that leaves linking to the loader, the names that have been announced are those
that are cached whenever the turn passes.
-/

namespace AsyncImport.Desk

open Site Edit Change Protocol Protocol.Course

variable {S : Desk} {u v w : World} {host : Host} {α β : Type} {a : Option Activity}
  {scope : String → Prop}

/-! ## Steps of a host -/

theorem Aside.proceeds (aside : S.Aside w v) : S.Proceeds w v where
  toUnlinking := aside.toUnlinking
  stands := aside.stands
  filed := aside.filed
  tasks {t a} task := by
    by_cases known : w.task? t = none
    · right
      obtain ⟨-, is | ⟨x, rfl, awaited⟩⟩ := aside.begun known task
      · exact due_asked is
      · exact ⟨.again awaited, by simp⟩
    · exact .inl ((aside.mild t known).task?.symm.trans task)
  done {f d x} activity done := by
    left
    by_cases live : w.heap.Live f
    · have follows : Future.Follows _ _ := aside.endures.futures f live
      refine ⟨follows.activity.symm, ?_⟩
      by_cases waiting : (w.heap.get f).status = .waiting
      · have task : w.task? f ≠ none := by
          rw [World.task?_eq_some.mpr ⟨waiting, follows.activity.symm.trans activity⟩]
          simp
        rw [← (aside.mild f task).status, done]
      · rw [← follows.status waiting, done]
    · have waiting := aside.unfinished f _ live activity
      rw [waiting] at done
      cases done
  current := aside.current
  mild := aside.mild
  free t none task := by
    obtain ⟨a, task⟩ := Option.ne_none_iff_exists'.mp task
    exact (aside.begun none task).1

theorem chronicling_release (name : Value) :
    S.chronicling.Does (Loader.loadPending S.loader name) w fun _ _ => True := by
  unfold Loader.loadPending
  refine does_fine fun chronicle => does_bind (does_quiet _) fun pending v keeps ⟨_, run⟩ => ?_
  cases pending with
  | true =>
    obtain ⟨s, label, item, rfl, found, -, rfl⟩ := Chronicle.isIn chronicle run
    refine does_bind (chronicling_remove found) fun x u _ _ => ?_
    refine does_bind (does_spawn fun chronicle => ?_) fun f _ _ _ => does_pure fun _ => trivial
    have proceeds : S.Proceeds u (spawned u (.loadDependencies S.loader x)) :=
      proceeds_asked (Chronicle.stands chronicle) rfl
    exact ⟨proceeds, Chronicle.continued chronicle proceeds.toContinues⟩
  | false =>
    refine does_bind (does_quiet _) fun m v _ _ => ?_
    refine does_bind (does_quiet _) fun known v _ _ => ?_
    cases known <;> exact does_bind (does_quiet _) fun _ _ _ _ => does_throw _

theorem Undertakes.proceeds (undertakes : S.Undertakes w v) (chronicle : S.Chronicle none w) :
    S.Proceeds w v := by
  have done {α : Type} {e : Edit α} {Q : α → World → Prop} (does : S.chronicling.Does e w Q) :
      S.Proceeds w (e.after w).2 := (does.after chronicle).1.1
  cases undertakes with
  | aside is => exact is.proceeds
  | load name parent => exact done (does_load name parent)
  | fetch name parent => exact done (does_fetch name parent)
  | register name deps factory => exact done (does_register name deps factory)
  | declare name deps factory => exact done (does_managerRegister name deps factory)
  | release name => exact done (chronicling_release name)

theorem unlinking_of_hosted (hosted : Hosted a) : ¬ Linking a := by
  intro links
  cases a with
  | none => exact links
  | some b => cases b <;> first | exact links | exact hosted

theorem recites_hosted (hosted : Hosted a) (r : Routine α) (telling : S.Telling w)
    (free : w.AtOnce a ∨ (S.holds → ∀ s, ¬ scope s)) : S.Recites host scope a r Any w := by
  have unlinking := unlinking_of_hosted hosted
  have free {u : World} (recounts : S.Recounts scope w u) (may : ¬ u.AtOnce a) :
      S.holds → ∀ s, ¬ scope s :=
    free.resolve_left fun cannot =>
      may ((atOnce_functions recounts.lasting.endures.functions).mpr cannot)
  refine goes_any telling (fun {u v} recounts expected => ?_) (fun {u b} recounts calls => ?_)
    (fun recounts may => free recounts may) fun recounts may => free recounts may
  · have telling : S.Telling u := Recounts.telling recounts
    obtain ⟨-, undertakes⟩ := expected
    exact (undertakes hosted).proceeds telling.chronicle |>.steps telling
  · have entrusts : S.Entrusts a u b := calls
    exact grants_carried (Recounts.telling recounts) (fun links => absurd links unlinking)
      (fun suspends => free recounts fun cannot => entrusts.atOnce cannot suspends)
      (fun uses => uses.admitted hosted) (.inl hosted) calls

/-! ## Calling -/

theorem recites_refused {x : Value} (telling : S.Telling w) (other : ∀ r, x ≠ .obj .module r) :
    S.Recites host scope a (Linker.link (.obj .manager S.manager) x) Any w := by
  unfold Linker.link
  split
  · next r => exact absurd rfl (other r)
  · next d =>
    refine recites_first telling fun c v _ recounts => ?_
    have last {v : World} (telling : S.Telling v) : S.Recites host scope a (do
        (← items c.deps).forM fun dep => do
          let _ ← Linker.dependency (.obj .manager S.manager) dep
        Manager.cache (← asManager (.obj .manager S.manager)) (.obj .draft d)
        return .obj .draft d : Routine Value) Any v := by
      refine recites_first telling fun deps v _ recounts => ?_
      refine goes_bind (recites_each recounts.telling deps) fun _ v recounts _ => ?_
      refine recites_first (Recounts.telling recounts) fun m v run recounts => ?_
      cases run
      refine recites_doing (R := fun _ _ => True) recounts.telling ?_ fun _ v recounts _ =>
        goes_done recounts.telling trivial
      change S.chronicling.Does (Manager.cache S.manager (.obj .draft d)) v _
      exact does_look (fun _ => rfl) (does_throw _)
    split
    · exact last recounts.telling
    · exact goes_bind (R := Any) (goes_raise recounts.telling) fun _ v recounts _ =>
        last (Recounts.telling recounts)
  · exact goes_raise telling

theorem recites_callWith {f : Value} {args : List Value} (telling : S.Telling w)
    (permitted : S.Permitted w f args)
    (bound : f.Bound → ∀ r : Routine Value, S.Recites host scope a r Any w)
    (other : ∀ m r, f = .library .linkModule → args ≠ [m, .obj .module r]) :
    S.Recites host scope a (Routine.callWith f ⟨args, []⟩) Any w :=
  goes_callWith telling permitted bound
    (fun _ _ recounts => grants_public (Recounts.telling recounts) rfl fun never => never.elim)
    (fun _ _ cannot => grants_public telling trivial fun may => absurd may cannot)
    fun _ is given => recites_refused telling fun r same => other _ r is (same ▸ given)

theorem safe_callLinker {r : Ref .module} (telling : S.Telling w) (linkable : S.Linkable w r) :
    (S.linking host).Safe a (S.Linked r w) (Routine.callWith (.library .linkModule)
      ⟨[.obj .manager S.manager, .obj .module r], []⟩) w := by
  change (S.linking host).Safe a (S.Linked r w) ((Method.two (required .manager) (required .module)
    Linker.link).call ⟨[.obj .manager S.manager, .obj .module r], []⟩) w
  unfold Method.call Method.two
  rw [run_bindTwo]
  refine safe_before (.refl telling)
    (recites_quiet telling (pure [Value.obj .manager S.manager, .obj .module r])) fun xs v _ _ run => ?_
  cases run
  exact safe_linker telling linkable

/-! ## All activities -/

theorem recites_compileStage (telling : S.Telling w) (unlinking : ¬ Linking a) (m draft : Value) :
    S.Recites host scope a (Stage.compile m draft) (Ok fun _ _ => ∃ d, draft = .obj .draft d) w := by
  by_cases is : ∃ d, draft = .obj .draft d
  · refine Goes.mono (recites_invoking telling unlinking
      (Routine.within_compileStage plain_tame m draft trivial)) fun o _ _ _ => ?_
    cases o with
    | ok x => exact is
    | error e => trivial
  · unfold Stage.compile
    refine recites_first telling fun d v run _ => absurd ?_ is
    cases draft with
    | obj k r => cases k <;> first | exact ⟨r, rfl⟩ | cases run
    | _ => cases run

def Fast (S : Desk) (w : World) (b : Activity) (s : String) : Prop := ¬ Suspends w b ∧ S.Cached w s

theorem recites_meaning {b : Activity} (telling : S.Telling w) (allows : S.Allows w b)
    (apart : ∀ m r, b ≠ .invoke (.library .linkModule) [m, .obj .module r]) :
    S.Recites host (S.Fast w b) (some b) (host.meaning b)
      (fun o v => S.linkage.ends (some b) v o → ∀ x, o = .ok x → S.Brings v b x) w := by
  obtain ⟨admitted, makes, links, holds⟩ := allows
  have bring {r : Routine Value} {R : Value → World → Prop}
      (goes : S.Recites host (S.Fast w b) (some b) r (Ok R) w)
      (brings : ∀ x v, R x v → S.Brings v b x) : S.Recites host (S.Fast w b) (some b) r
        (fun o v => S.linkage.ends (some b) v o → ∀ x, o = .ok x → S.Brings v b x) w := by
    refine Goes.mono goes fun o v _ holds _ x is => ?_
    subst is
    exact brings x v holds
  -- most activities come to nothing that anybody relies on
  have other {r : Routine Value} (goes : S.Recites host (S.Fast w b) (some b) r Any w)
      (brings : ∀ x v, S.Brings v b x) : S.Recites host (S.Fast w b) (some b) r
        (fun o v => S.linkage.ends (some b) v o → ∀ x, o = .ok x → S.Brings v b x) w :=
    Goes.mono goes fun _ v _ _ _ x _ => brings x v
  have empty (suspends : Suspends w b) : S.holds → ∀ s, ¬ S.Fast w b s := fun _ _ fast => fast.1 suspends
  cases b with
  | host n args =>
    refine other (recites_hosted (a := some (.host n args)) trivial _ telling ?_) fun _ _ => trivial
    by_cases may : w.MayWait n
    · exact .inr (empty may)
    · exact .inl may
  | invoke f args =>
    refine other (recites_callWith telling (admitted.permitted (.inl rfl)) (fun bound r => ?_)
      fun m r is same => ?_) fun _ _ => trivial
    · exact recites_hosted (a := some (.invoke f args)) bound r telling (.inl bound)
    · exact apart m r (by rw [is, same])
  | produce f args =>
    refine other (recites_callWith telling (admitted.permitted (.inr rfl)) (fun bound r => ?_)
      fun m r is same => ?_) fun _ _ => trivial
    · exact recites_hosted (a := some (.produce f args)) bound r telling (.inl bound)
    · exact makes args (by rw [is])
  | awaitValue x =>
    refine other (goes_settled telling (empty trivial) fun c u is recounts => ?_) fun _ _ => trivial
    obtain ⟨-, kind | ⟨y, again⟩⟩ := admitted.awaited rfl c is
    · exact grants_public (Recounts.telling recounts) kind fun _ => empty trivial
    · rw [again]
      exact grants_await (Recounts.telling recounts) y (empty trivial)
  | runStages p context payload =>
    exact other (recites_consulting telling id (empty trivial)
      (Routine.within_runPipeline roomy_tame _ _ _ trivial)) fun _ _ => trivial
  | runPlugin p hook draft =>
    exact other (recites_consulting telling id (empty trivial)
      (Routine.within_runPlugin roomy_tame _ _ _ trivial)) fun _ _ => trivial
  | runFanout f draft =>
    exact other (recites_consulting telling id (empty trivial)
      (Routine.within_runFanout roomy_tame _ _ trivial)) fun _ _ => trivial
  | runRegistry r hook draft =>
    exact other (recites_consulting telling id (empty trivial)
      (Routine.within_runRegistry roomy_tame _ _ _ trivial)) fun _ _ => trivial
  | resolveHandler r name =>
    exact other (recites_consulting telling id (empty trivial)
      (Routine.within_resolve roomy_tame _ _ trivial)) fun _ _ => trivial
  | fetchStage m name parent =>
    exact other (goes_bind (recites_consulting telling id (empty trivial)
      (Routine.within_fetchStage roomy_tame _ _ _ trivial)) fun d v recounts _ =>
        goes_done (Recounts.telling recounts) trivial) fun _ _ => trivial
  | transformStage m draft =>
    exact other (goes_bind (recites_consulting telling id (empty trivial)
      (Routine.within_transformStage roomy_tame _ _ trivial)) fun d v recounts _ =>
        goes_done (Recounts.telling recounts) trivial) fun _ _ => trivial
  | dependencyStage m draft =>
    obtain rfl : m = .obj .manager S.manager := by simpa [Public, Plain] using admitted.public
    exact other (recites_dependencyStage telling (empty trivial) id draft) fun _ _ => trivial
  | compileStage m draft =>
    refine Goes.mono (recites_compileStage telling id m draft) fun o v _ made ends x is => ?_
    subst is
    obtain ⟨d, rfl⟩ := made
    exact ⟨d, rfl, fun r is => ends.2 m d r rfl (is ▸ rfl)⟩
  | fetchDraft l name parent =>
    obtain rfl : l = S.loader := by simpa [Public, Plain] using admitted.public
    refine Goes.mono (recites_fetchDraft telling (empty trivial) id name parent) fun o v _ _ ends x is => ?_
    subst is
    cases name with
    | str s => exact fun d is => ends.1 S.loader s parent d rfl (is ▸ rfl)
    | _ => trivial
  | pipelineDraft l draft =>
    obtain rfl : l = S.loader := by simpa [Public, Plain] using admitted.public
    exact other (recites_pipelineDraft telling (empty trivial) id draft) fun _ _ => trivial
  | loadDependencies l draft =>
    obtain rfl : l = S.loader := by simpa [Public, Plain] using admitted.public
    exact bring (recites_loadDependencies telling (empty trivial) draft) fun _ _ is => is
  | transformOptions l options draft =>
    exact other (recites_transformOptions telling (empty trivial) id l options draft) fun _ _ => trivial
  | buildFetched l name fetching =>
    obtain ⟨rfl, f, rfl⟩ : l = S.loader ∧ ∃ f, fetching = .obj .future f := by
      simpa [Public, Plain] using admitted.public
    exact bring (recites_buildFetched telling (empty trivial) name f) fun _ _ provided => provided
  | buildReported l name =>
    obtain rfl : l = S.loader := by simpa [Public, Plain] using admitted.public
    exact bring (recites_buildReported telling (empty trivial) name) fun _ _ provided => provided
  | build l name =>
    obtain rfl : l = S.loader := by simpa [Public, Plain] using admitted.public
    exact bring (recites_build telling (empty trivial) name) fun _ _ provided => provided
  | settle => exact (admitted.public (by simp) (by simp)).elim False.elim False.elim
  | buildNow l name =>
    obtain rfl : l = S.loader := by simpa [Public, Plain] using admitted.public
    refine bring (recites_buildNow telling name fun held s fast is => ?_) fun _ _ provided => provided
    -- a host that leaves the cache alone has nothing built that is cached
    exact (holds held S.loader .none).2 s (by rw [is]) fast.2
  | link l module =>
    obtain rfl : l = S.loader := by simpa [Public, Plain] using admitted.public
    by_cases is : ∃ r, module = .obj .module r
    · obtain ⟨r, rfl⟩ := is
      have linkable := links r (.inr ⟨_, rfl⟩)
      have goes : S.Recites host (S.Fast w (.link S.loader (.obj .module r)))
          (some (.link S.loader (.obj .module r)))
          (Loader.link S.loader (.obj .module r)) _ w :=
        recites_link telling (fun q same => by cases same; exact ⟨linkable, rfl⟩) fun held =>
          absurd rfl (holds held S.loader (.obj .module r)).1
      exact other goes.any fun _ _ => trivial
    · have goes : S.Recites host (S.Fast w (.link S.loader module)) (some (.link S.loader module))
          (Loader.link S.loader module) (Ok fun x v => S.Provided v (.str "") x) w :=
        recites_link telling (fun q same => absurd ⟨q, same⟩ is) fun held =>
          absurd rfl (holds held S.loader module).1
      exact other goes.any fun _ _ => trivial
  | importNames m names =>
    obtain rfl : m = S.manager := by simpa [Public, Plain] using admitted.public
    exact other (recites_importNames telling (empty trivial) names) fun _ _ => trivial
  | importModule m name =>
    obtain rfl : m = S.manager := by simpa [Public, Plain] using admitted.public
    exact other (recites_importModule telling (empty trivial) name) fun _ _ => trivial
  | require m name =>
    obtain rfl : m = S.manager := by simpa [Public, Plain] using admitted.public
    exact bring ((recites_require telling name).among fun _ s fast => fast.2) fun _ _ provided => provided

theorem linking_or (b : Activity) : (∃ m r, b = .invoke (.library .linkModule) [m, .obj .module r]) ∨
    ∀ m r, b ≠ .invoke (.library .linkModule) [m, .obj .module r] := by
  by_cases is : ∃ m r, b = .invoke (.library .linkModule) [m, .obj .module r]
  · exact .inl is
  · exact .inr fun m r same => is ⟨m, r, same⟩

theorem linking_spec {b : Activity} (telling : S.Telling w) (allows : S.Allows w b) :
    (S.linking host).Safe (some b)
      (fun o v => S.linkage.ends (some b) v o → (S.linking host).post b w o v) (host.meaning b) w := by
  rcases linking_or b with ⟨m, r, rfl⟩ | apart
  · have permitted := allows.admitted.permitted (.inl rfl)
    obtain rfl : m = .obj .manager S.manager := by simpa [Permitted] using permitted
    refine Safe.mono (safe_callLinker telling (allows.links r (.inl ⟨_, rfl⟩))) fun o v linked _ => ?_
    exact ⟨linked.closes, linked.active, fun _ => linked.stays, fun _ _ => trivial⟩
  · refine Safe.mono (recites_meaning telling allows apart) fun o v done ends => ?_
    have recounts : S.Recounts (S.Fast w b) w v := done.1
    have brings := done.2
    refine ⟨?_, recounts.telling.active, fun fast holds s r _ entry => ?_, brings ends⟩
    · unfold Closes
      split
      · exact absurd rfl (apart _ _)
      · exact recounts.telling.chronicle
    · exact recounts.stays holds s r ⟨fast, cached_of_entry entry⟩ entry

theorem allows_public {b : Activity} (is : S.Public b) : S.Allows w b where
  admitted := .inl (.inl is)
  makes _ := by rintro rfl; exact is
  links r := by rintro (⟨m, rfl⟩ | ⟨l, rfl⟩) <;> exact is.elim
  holds _ l x := ⟨(rests_public is l x).1, fun s same => absurd same (rests_public is l _).2⟩

theorem allows_await {x : Value} (awaited : S.Awaited w x) : S.Allows w (.awaitValue x) where
  admitted := .inr (.inr ⟨x, rfl, awaited⟩)
  makes := by simp
  links := by simp
  holds := by simp

/-- A task keeps the chronicle complete when it starts, and whenever it is set aside. -/
theorem linking_start {t : Ref .future} {b : Activity} {jobs : List Job}
    (chronicle : S.Chronicle none w) (task : w.task? t = some b) :
    (S.linking host).Safe (some b)
      (fun o v => S.linkage.ends (some b) v o → (S.linking host).Ends (some t) o v)
      (host.meaning b) (w.resumed t jobs) := by
  have preserves : w.Preserves (w.resumed t jobs) := .ofTurns (World.turns_resumed w t jobs)
  have telling : S.Telling (w.resumed t jobs) := by
    refine ⟨chronicle.continued (continues_resumed chronicle.stands t jobs), fun s is => ?_⟩
    obtain rfl := Option.some.inj is
    exact (World.runs_resumed jobs (by simp [task])).active
  have activity := activity_endures preserves.endures (activity_of_task task)
  have last {o : Outcome} {v : World} {scope : String → Prop}
      (recounts : S.Recounts scope (w.resumed t jobs) v)
      (brings : ∀ x, o = .ok x → S.Brings v b x) : (S.linking host).Ends (some t) o v := by
    have chronicle := recounts.telling.chronicle
    have activity := activity_endures recounts.lasting.endures activity
    refine ⟨chronicle.continued (continues_ended chronicle.stands activity brings),
      fun c x is ends => ?_⟩
    obtain rfl := Option.some.inj (activity.symm.trans is)
    exact brings x ends
  have common (allows : S.Allows (w.resumed t jobs) b) (calls : ∀ f args, b ≠ .invoke f args) :
      (S.linking host).Safe (some b)
        (fun o v => S.linkage.ends (some b) v o → (S.linking host).Ends (some t) o v)
        (host.meaning b) (w.resumed t jobs) :=
    Safe.mono (recites_meaning telling allows fun m r => calls _ _)
      fun o v ⟨recounts, brings⟩ ends => last recounts (brings ends)
  have due := (chronicle.tasks task).mono preserves
  cases due.ours with
  | asked is => exact common (allows_public is) (by rintro f args rfl; exact is)
  | again awaited => exact common (allows_await awaited) (by simp)
  | @settle s work markLoaded report works =>
    have delivers (f : Ref .future) (is : work = .obj .future f) :
        S.Delivers (w.resumed t jobs) s f := by
      subst is
      exact due.delivers _ _ _ _ rfl
    have settles (a : Option Activity) : S.Recites host (fun _ => False) a _ Any (w.resumed t jobs) :=
      recites_settle telling (fun _ _ => id) works delivers markLoaded report
    exact Safe.mono (settles _) fun o v ⟨recounts, _⟩ _ => last recounts fun _ _ => trivial

/-- The names that have been announced are those that are cached, whatever its host does. -/
theorem linking_lawful (S : Desk) (host : Host) : (S.linking host).Lawful where
  endures lasting := (Lasting.toPreserves lasting).endures
  lasting := Lasting.trans
  passing := Lasting.ofTurns
  sparing := sparing_mild
  trans _ _ := trivial
  turn _ := trivial
  born _ _ := trivial
  failure chronicle := Chronicle.continued chronicle
    (proceeds_failure (Chronicle.stands chronicle) _).toContinues
  report _ chronicle _ _ :=
    Chronicle.continued chronicle (continues_reported (Chronicle.stands chronicle) _ _ _)
  dropped _ chronicle _ _ _ _ :=
    Chronicle.continued chronicle (continues_dropped (Chronicle.stands chronicle) _ _)
  idle _ chronicle _ _ _ :=
    Chronicle.continued chronicle (continues_popped (Chronicle.stands chronicle) _)
  spec := by
    rintro - b w ⟨telling, allows⟩
    exact linking_spec telling allows
  start _ chronicle _ task _ _ _ := linking_start chronicle task
  visit := by
    intro w r _ chronicle idle
    have hosted : S.Recites host (fun _ => False) none r Any w :=
      recites_hosted (a := none) trivial r ⟨chronicle, by simp [idle]⟩ (.inr fun _ _ => id)
    exact Safe.mono hosted fun _ _ ⟨recounts, _⟩ _ => (Recounts.telling recounts).chronicle

end AsyncImport.Desk
