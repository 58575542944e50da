import AsyncImport.Proofs.Grounding

/-!
# Promises kept

A task that loads dependencies ends well only when all of them have been fetched, and a fetch ends
well only when the dependencies of its draft are loaded. So whoever ends well has a name that is
grounded, and every activity keeps to the plan.
-/

namespace AsyncImport.Site

open Edit Change Protocol

variable {S : Site} {g : Plan} {u v w : World} {host : Host} {α β : Type} {a : Option Activity}

/-! ## Loading dependencies -/

def Promised (S : Site) (g : Plan) (dep x : Value) (w : World) : Prop :=
  ∃ r f, dep = .str r ∧ x = .obj .future f ∧ w.heap.Live f ∧
    (g.Grounded r ∨ ∃ work, S.Settles w f r work)

theorem Promised.mono {dep x : Value} (promised : S.Promised g dep x w) (evolves : w.Evolves v) :
    S.Promised g dep x v := by
  obtain ⟨r, f, is, same, live, holds⟩ := promised
  exact ⟨r, f, is, same, evolves.live live,
    holds.imp_right fun ⟨work, settles⟩ => ⟨work, settles.mono evolves⟩⟩

theorem promised_fetched {s : String} {parent : Value} {f : Ref .future} (charted : S.Charted g w)
    (tidy : S.Tidy v) (fetched : S.Fetched w v s parent f) :
    S.Promised g (.str s) (.obj .future f) v := by
  refine ⟨s, f, rfl, rfl, (fetched.waits tidy).1, ?_⟩
  cases fetched with
  | known known _ _ =>
    rcases known with cached | ⟨label, item, found⟩
    · exact .inl (charted.cached cached)
    · exact .inl (charted.loaded found).1
  | shared _ after _ | begun _ after _ => exact .inr (tidy.loads after).2

theorem grounded_of_group {m : Ref .future} {x : Value} {s : String} {ys : List Value}
    (charted : S.Charted g w) (status : (w.heap.get m).status = .done x)
    (among : ∀ f : Ref .future, .obj .future f ∈ ys →
      ∃ members, (w.heap.get m).members? = some members ∧ f ∈ members)
    (promises : List.Forall₂ (fun dep y => S.Promised g dep y w) ((g s).map .str) ys) : g.Grounded s := by
  refine Plan.grounded_of_all fun d mem => ?_
  obtain ⟨y, answered, r, f, is, rfl, -, holds⟩ := exists_right promises (List.mem_map_of_mem mem)
  cases is
  rcases holds with grounded | ⟨work, _, _, activity⟩
  · exact grounded
  · obtain ⟨members, known, mem⟩ := among f answered
    obtain ⟨z, done⟩ := charted.tallied.valued known status f mem
    exact charted.done activity done

section

variable {s : String} {d : Ref .draft}

theorem draft_kept (evolves : w.Evolves v) (named : (w.heap.get d).name = .str s) :
    (v.heap.get d).name = .str s := by
  have kept : (v.heap.get d).name = (w.heap.get d).name := evolves.follows d (live_named named)
  exact kept.trans named

theorem plots_requests (charted : S.Charted g w) (named : (w.heap.get d).name = .str s)
    (listed : w.heap.items? (w.heap.get d).deps = some ((g s).map .str))
    (edges : ∀ r ∈ g s, .text r ∈ S.next w s) :
    S.Plots g host a (do
      let fetches ← (← items (← Edit.read d).deps).mapM fun dep =>
        (Loader.fetch S.loader dep (.obj .draft d) : Edit Value)
      let _ ← Routine.result (← group fetches) : Routine Unit) (fun _ _ => g.Grounded s) w := by
  refine plots_first charted fun c v run charted _ => ?_
  cases run
  refine plots_first charted fun xs v run charted _ => ?_
  obtain ⟨known, rfl⟩ := run_items run
  obtain rfl := Option.some.inj (listed.symm.trans known)
  refine plots_bind (plots_mapM (J := fun u => ∀ r ∈ g s, .text r ∈ S.next u s)
    (R := S.Promised g) charted edges (fun x mem u charted evolves edges => ?_) Promised.mono)
      fun fetches u charted _ ⟨_, promises⟩ => ?_
  · obtain ⟨r, needed, rfl⟩ := List.mem_map.mp mem
    have announced : S.Announced u (.str r) (.obj .draft d) :=
      .inr ⟨d, s, rfl, draft_kept evolves named, fun q same => by cases same; exact edges r needed⟩
    refine plots_edit charted (fun _ _ => draws_fetch announced) fun y z run orderly _ _ => ?_
    have does := does_fetch (L := S.moving) (w := u) (.str r) (.obj .draft d)
    obtain ⟨moved, -⟩ := does orderly.tidy
    obtain ⟨_, f, same, rfl, fetched⟩ := does.holds orderly.tidy run
    cases same
    change Loader.fetch S.loader (.str r) (.obj .draft d) u = _ at run
    rw [run] at moved
    refine ⟨fun q mem => ?_, promised_fetched charted moved.tidy fetched⟩
    unfold Site.next
    rw [moved.waits]
    exact edges q mem
  have futures (y : Value) (mem : y ∈ fetches) : ∃ f, y = .obj .future f ∧ u.heap.Live f := by
    obtain ⟨_, -, r, f, -, is, live, -⟩ := exists_left promises mem
    exact ⟨f, is, live⟩
  refine plots_doing charted (fun _ orderly => draws_group orderly futures)
    fun m z run _ orderly _ charted' evolves => ?_
  obtain ⟨_, _, run', -, -, among⟩ := sketches_group (g := g) orderly.tidy futures
  cases run.symm.trans run'
  refine plots_bind (plots_result charted') fun x y charted later status => ?_
  refine plots_done charted (grounded_of_group charted status (fun f mem => ?_)
    (promises.imp fun _ _ promised => promised.mono (evolves.trans later)))
  obtain ⟨members, is, among⟩ := among f mem
  have live : z.heap.Live m := by
    by_contra dead
    rw [Heap.get_not_live dead] at is
    cases is
  have follows : Future.Follows _ _ := later.follows m live
  exact ⟨members, follows.members.trans is, among⟩

theorem plots_stop (charted : S.Charted g w) (named : (w.heap.get d).name = .str s) :
    S.Plots g host a (do Loader.stopWaiting S.loader (← Edit.read d).name : Routine Unit)
      (fun _ _ => True) w := by
  refine plots_first charted fun c v run charted _ => ?_
  cases run
  rw [named]
  exact plots_edit charted (fun _ _ => draws_stopWaiting s w) fun _ _ _ _ _ _ => trivial

theorem plots_loadDependencies (charted : S.Charted g w) (named : (w.heap.get d).name = .str s) :
    S.Plots g host (some (.loadDependencies S.loader (.obj .draft d)))
      (Loader.loadDependencies S.loader (.obj .draft d))
      (fun x v => x = .obj .draft d ∧ (v.Lists g d → g.Grounded s)) w := by
  unfold Loader.loadDependencies
  refine plots_first charted fun e v run charted _ => ?_
  cases run
  refine plots_first charted fun c v run charted _ => ?_
  cases run
  refine plots_first charted fun some v run charted _ => ?_
  cases run
  split
  case isFalse none =>
    refine plots_done charted ⟨rfl, fun lists => Plan.grounded_of_all ?_⟩
    have empty := lists s named
    rw [if_neg none] at empty
    simp [empty]
  rename_i full
  -- the items are those of the plan, so that the name gets an edge to each of them
  have starts (expected : (S.charting g).writes (some (.loadDependencies S.loader (.obj .draft d))) w
      (Edit.after (Loader.startWaiting S.loader (w.heap.get d).name (w.heap.get d).deps) w).2) :
      w.heap.items? (w.heap.get d).deps = some ((g s).map .str) ∧
      ∃ waits, Loader.startWaiting S.loader (w.heap.get d).name (w.heap.get d).deps w =
        (.ok (), S.rewired w waits) ∧ S.Sketches g w (S.rewired w waits) ∧
          ∀ r ∈ g s, .text r ∈ S.next (S.rewired w waits) s := by
    have lists := expected.2.2 _ _ rfl s named
    rw [if_pos full] at lists
    rw [named]
    exact ⟨lists, starts_waiting charted.stands lists⟩
  refine plots_doing charted (fun expected _ => ?_) fun _ v run expected _ _ charted' evolves => ?_
  · obtain ⟨-, waits, run, sketches, -⟩ := starts expected
    exact draws_ok run fun _ => sketches
  have written : (Edit.after
      (Loader.startWaiting S.loader (w.heap.get d).name (w.heap.get d).deps) w).2 = v := by
    unfold Edit.after
    change Loader.startWaiting _ _ _ w = _ at run
    rw [run]
  obtain ⟨listed, waits, run', -, edges⟩ := starts (written ▸ expected)
  cases run.symm.trans run'
  have named' : ((S.rewired w waits).heap.get d).name = .str s := draft_kept evolves named
  have listed' : (S.rewired w waits).heap.items? ((S.rewired w waits).heap.get d).deps =
      some ((g s).map .str) := by
    rw [items?_rewired, get_rewired waits d (by decide), listed]
  refine plots_bind (R := fun _ _ => g.Grounded s) ?_ fun _ v charted _ grounded =>
    plots_done charted ⟨rfl, fun _ => grounded⟩
  refine plots_andThen (plots_requests charted' named' listed' edges) (fun x v charted later grounded => ?_)
    fun e v charted later => ?_
  · exact plots_bind (plots_stop charted (draft_kept later named')) fun _ v charted _ _ =>
      plots_done charted grounded
  · exact plots_bind (plots_stop charted (draft_kept later named')) fun _ v charted _ _ =>
      plots_fail charted e

end

/-! ## Settling -/

theorem plots_work {s : String} {work : Value} (charted : S.Charted g w) (unlinking : ¬ Linking a)
    (is : S.Work w s work) : S.Plots g host a (Routine.awaitValue work)
      (fun x v => Vouched g v x ∧ g.Grounded s) w := by
  cases is with
  | @fetch c parent live activity =>
    refine (plots_awaitValue charted unlinking).mono fun x v _ _ result => ?_
    have result := result c rfl live
    rwa [activity] at result
  | @registered f loads =>
    obtain ⟨d, activity, live, named⟩ := loads
    refine (plots_result charted).mono fun x v charted evolves status => ?_
    obtain ⟨rfl, e, same, n, named', grounded⟩ := charted.done (activity_mono evolves activity) status
    cases same
    obtain rfl : s = n := by simpa using (draft_kept evolves named).symm.trans named'
    exact ⟨⟨d, rfl, s, named', grounded⟩, grounded⟩

theorem plots_settle {s : String} {work : Value} {markLoaded report : Bool} (charted : S.Charted g w)
    (unlinking : ¬ Linking a) (is : S.Work w s work) :
    S.Plots g host a (Loader.settle S.loader (.str s) work markLoaded report)
      (fun _ _ => g.Grounded s) w := by
  unfold Loader.settle
  refine plots_bind (R := fun x v => Vouched g v x ∧ g.Grounded s) ?_
    fun draft v charted _ ⟨vouched, grounded⟩ => ?_
  · refine plots_andThen (plots_work charted unlinking is)
      (fun x v charted _ holds => plots_done charted holds) fun e v charted _ => ?_
    refine plots_bind (R := fun _ _ => True) ?_ fun _ v charted _ _ => plots_fail charted e
    refine plots_doing charted (fun _ _ => draws_dropLoading s v) fun _ v _ _ _ _ charted _ => ?_
    refine plots_first charted fun c v _ charted _ => ?_
    split
    · exact plots_first charted fun m v _ charted _ => plots_report charted m _ _
    · exact plots_done charted trivial
  · split
    · refine plots_doing charted (fun _ _ => draws_setLoaded grounded vouched)
        fun _ v _ _ _ _ charted _ => ?_
      exact plots_quiet charted fun _ _ _ _ _ => grounded
    · refine plots_doing charted (fun _ _ => draws_dropLoading s v) fun _ v _ _ _ _ charted _ => ?_
      exact plots_quiet charted fun _ _ _ _ _ => grounded

/-! ## Fetching -/

theorem plots_lastStage (charted : S.Charted g w) (context payload : Value) :
    S.Plots g host a (Pipeline.runStage context payload (.library .dependencyStage))
      (fun x v => Vouched g v x) w := by
  unfold Pipeline.runStage
  refine plots_first charted fun name v _ charted _ => ?_
  refine plots_first charted fun _ v _ charted _ => ?_
  refine plots_bind (plots_carry charted (by simp)) fun x v charted _ result => ?_
  obtain ⟨c, m, d, rfl, live, activity⟩ := result
  refine plots_bind (plots_carry charted (by simp)) fun x u charted evolves ⟨_, vouched⟩ => ?_
  have vouched := vouched m d ((activity_kept evolves live).trans activity)
  obtain ⟨e, rfl, sure⟩ := vouched
  exact plots_done charted ⟨e, rfl, sure⟩

theorem plots_pipelineDraft (charted : S.Charted g w) (unlinking : ¬ Linking a) (draft : Value) :
    S.Plots g host a (Loader.pipelineDraft S.loader draft) (fun x v => Vouched g v x) w := by
  unfold Loader.pipelineDraft
  refine plots_first charted fun d v _ charted _ => ?_
  refine plots_first charted fun _ v _ charted _ => ?_
  refine plots_first charted fun c v _ charted _ => ?_
  split
  · exact (plots_carry charted (by simp)).mono fun _ _ _ _ ⟨_, vouched⟩ => vouched
  · have stands := charted.stands
    refine plots_first charted fun loader v run charted _ => ?_
    cases run
    rw [stands.runs]
    unfold Pipeline.run
    refine plots_first charted fun p v run charted _ => ?_
    cases run
    rw [stands.stages]
    unfold Loader.stages
    rw [List.foldlM_cons]
    refine plots_bind (plots_outward charted
      (Routine.within_runStage (roomy_outward unlinking) _ _ _ trivial)) fun x v charted _ _ => ?_
    rw [List.foldlM_cons]
    exact plots_bind (plots_lastStage charted _ _) fun x v charted _ vouched =>
      plots_done charted vouched

theorem plots_fetchDraft (charted : S.Charted g w) (unlinking : ¬ Linking a) (name parent : Value) :
    S.Plots g host a (Loader.fetchDraft S.loader name parent) (fun x v => Vouched g v x) w := by
  unfold Loader.fetchDraft
  refine plots_first charted fun loader v _ charted _ => ?_
  refine plots_bind (plots_outward charted
    (Routine.within_fetchStage (roomy_outward unlinking) _ _ _ trivial)) fun d v charted _ _ => ?_
  exact plots_pipelineDraft charted unlinking _

/-! ## Activities -/

/-- Every activity keeps to the plan, and its result tells what it should. -/
theorem plots_meaning {b : Activity} (charted : S.Charted g w) (ready : S.Ready g w b) :
    S.Plots g host (some b) (host.meaning b)
      (fun x v => (S.charting g).ends (some b) v (.ok x) → Result g v b x) w := by
  have plain {r : Routine Value} (plots : S.Plots g host (some b) r (fun _ _ => True) w)
      (free : ∀ v x, Result g v b x) : S.Plots g host (some b) r
        (fun x v => (S.charting g).ends (some b) v (.ok x) → Result g v b x) w :=
    plots.mono fun x v _ _ _ _ => free v x
  cases b with
  | host n args =>
    exact plain (plots_hosted (a := some (.host n args)) trivial _ charted) fun _ _ => trivial
  | invoke f args =>
    exact (plots_callWith charted ready.1 id ready.2).mono fun _ _ _ _ result _ => result
  | produce f args =>
    exact plain ((plots_callWith charted ready.1 id fun is => absurd is ready.2).mono
      fun _ _ _ _ _ => trivial) fun _ _ => trivial
  | awaitValue v =>
    refine (plots_settled charted fun c is => ?_).mono fun _ _ _ _ result _ => result
    subst is
    exact ready
  | transformStage m d =>
    exact plain (plots_bind (plots_outward charted (Routine.within_transformStage
      (roomy_outward id) _ _ trivial)) fun _ _ charted _ _ => plots_done charted trivial)
        fun _ _ => trivial
  | dependencyStage m d =>
    refine plots_bind (plots_outward charted (Routine.within_dependencies (roomy_outward id) _ _ trivial))
      fun d v charted _ _ => ?_
    refine plots_first charted fun m v _ charted _ => ?_
    refine plots_first charted fun manager v _ charted _ => ?_
    exact (plots_carry charted (by simp)).mono fun _ _ _ _ ⟨_, vouched⟩ _ => vouched
  | compileStage m d =>
    refine (plots_outward charted (Routine.within_compileStage (roomy_outward id).plain _ _ trivial)).mono
      fun x v _ _ _ ends => ?_
    cases d with
    | obj k r =>
      cases k with
      | draft => exact fun q is => ends.2.2 m r q rfl (congrArg Except.ok is)
      | _ => trivial
    | _ => trivial
  | fetchDraft l n p =>
    obtain ⟨rfl, s, rfl⟩ := ready
    refine (plots_fetchDraft charted id _ _).mono fun x v _ _ vouched ends => ?_
    obtain ⟨d, rfl, n, named, grounded⟩ := id vouched
    obtain rfl : n = s := by simpa using named.symm.trans (ends.2.1 _ s p d rfl rfl)
    exact ⟨vouched, grounded⟩
  | loadDependencies l d =>
    obtain ⟨rfl, d, s, rfl, named⟩ := ready
    refine (plots_loadDependencies charted named).mono fun x v _ evolves ⟨is, grounded⟩ ends => ?_
    have grounded := grounded (ends.1 _ d x rfl rfl)
    exact ⟨is, d, is, s, draft_kept evolves named, grounded⟩
  | build l n =>
    obtain ⟨rfl, s, rfl⟩ := ready
    exact plain (plots_build charted s) fun _ _ => trivial
  | buildReported l n =>
    obtain ⟨rfl, s, rfl⟩ := ready
    exact plain (plots_buildReported charted s) fun _ _ => trivial
  | buildFetched l n f =>
    obtain ⟨rfl, s, f, rfl, rfl⟩ := ready
    exact plain (plots_buildFetched charted s f) fun _ _ => trivial
  | settle l n work markLoaded report =>
    obtain ⟨rfl, s, rfl, is⟩ := ready
    exact (plots_settle charted id is).mono fun _ _ _ _ grounded _ => grounded
  | importNames m x =>
    obtain rfl : m = S.manager := ready
    exact plain (plots_importNames charted id x) fun _ _ => trivial
  | importModule m x =>
    obtain rfl : m = S.manager := ready
    exact plain (plots_importModule charted id x) fun _ _ => trivial
  | require m x =>
    obtain rfl : m = S.manager := ready
    exact plain (plots_require charted x) fun _ _ => trivial
  | buildNow l n =>
    obtain rfl : l = S.loader := ready
    exact plain (plots_buildNow charted n) fun _ _ => trivial
  | link l x =>
    obtain ⟨rfl, vetted⟩ := ready
    exact plain (plots_link charted vetted) fun _ _ => trivial
  | runStages | runPlugin | runFanout | runRegistry | resolveHandler | fetchStage | pipelineDraft
    | transformOptions => exact ready.elim

end AsyncImport.Site
