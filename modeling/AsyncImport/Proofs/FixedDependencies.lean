import AsyncImport.Proofs.Fulfilment

/-!
# Fixed dependencies along a run

Where every name is given the same dependencies each time, a name that leads to a circle of
dependencies is never loaded and never cached, and whoever is told of a circle is told of one that
there is.
-/

namespace AsyncImport.Site

open Edit Protocol Relation

variable {S : Site} {g : Plan} {u v w : World} {host : Host} {m start : Machine}

theorem charter_start {t : Ref .future} {b : Activity} {jobs : List Job} (tidy : S.Tidy w)
    (charted : S.Charted g w) (task : w.task? t = some b) :
    (S.charter g host).Safe (some b) (fun o v => (S.charting g).ends (some b) v o →
      S.Charted g (v.ended t o)) (host.meaning b) (w.resumed t jobs) := by
  have evolves := (World.turns_resumed w t jobs).evolves
  have charted := charted.sketch (sketches_resumed jobs (t := t) (by simp [task]))
  have fit : S.Ready g (w.resumed t jobs) b := by
    cases tidy.errands task with
    | settle =>
      obtain ⟨s, rfl, is, -⟩ := tidy.settling task
      exact ⟨rfl, s, rfl, is.mono evolves⟩
    | loadDependencies =>
      obtain ⟨s, owns⟩ := tidy.loading task
      rcases owns.activity with ⟨_, _, _, same⟩ | ⟨d, same, -, named⟩
      · simp [activity_of_task task] at same
      · exact ⟨rfl, d, s, by simpa [activity_of_task task] using same, draft_kept evolves named⟩
    | @buildReported s => exact ⟨rfl, s, rfl⟩
    | @buildFetched s f => exact ⟨rfl, s, f, rfl, rfl⟩
    | opened is =>
      cases b with
      | host => trivial
      | importNames | importModule => exact is
      | _ => exact is.elim
    | again live => exact evolves.live live
  refine Safe.mono (plots_meaning charted fit) fun o v ⟨charted, later, result⟩ ends => ?_
  have activity := activity_mono (evolves.trans later) (activity_of_task task)
  exact charted.sketch (sketches_ended activity fun x is => result x is (is ▸ ends))

/-- All tasks and all steps of a host that keeps to a plan keep to it. -/
theorem charter_lawful (S : Site) (g : Plan) (host : Host) : (S.charter g host).Lawful where
  endures := World.Evolves.endures
  lasting := World.Evolves.trans
  passing := World.Turns.evolves
  sparing := sparing_strict
  dropped tidy _ _ task flagged _ := absurd flagged (Machine.Calm.not_flagged tidy.calm task)
  trans _ _ := trivial
  turn _ := trivial
  born _ _ := trivial
  failure charted := charted_failure charted rfl
  report _ charted _ _ := charted.sketch sketches_report
  idle _ charted _ _ _ := charted.sketch (sketches_popped _)
  spec := by
    rintro - b w ⟨charted, ready⟩
    exact Safe.mono (plots_meaning charted ready) fun o v ⟨charted, _, result⟩ ends =>
      ⟨charted, fun x is => result x is (is ▸ ends)⟩
  start tidy charted _ task _ _ _ := Safe.mono (charter_start tidy charted task)
    fun _ _ charted ends => ⟨charted ends, trivial⟩
  visit r _ charted _ :=
    Safe.mono (plots_hosted (a := none) trivial r charted) fun _ _ ⟨charted, _⟩ _ => charted

structure Unused (S : Site) (m : Machine) : Prop extends S.Fresh m where
  plain : ∀ f : Ref .future, (m.world.heap.get f).origin = .plain
  cached : ∀ s, ¬ S.Cached m.world s
  circles : ∀ (r : Ref .failure) names, m.world.heap.get r ≠ Fault.circular names

namespace Unused

variable (unused : S.Unused start)
include unused

theorem charted (g : Plan) : S.Charted g start.world where
  stands := unused.stands
  circles is := absurd is (unused.circles _ _)
  edges edge := absurd (unused.idle _) (List.ne_nil_of_mem edge)
  loaded found := by simp [unused.records] at found
  cached known := absurd known (unused.cached _)
  done {t a x} activity _ := by simp [Future.activity?, unused.plain t] at activity
  tallied := ⟨fun {g _ _} is => by simp [Future.members?, unused.plain g] at is⟩

theorem charted_good (g : Plan) (host : Host) : (S.charter g host).Good start :=
  Protocol.good_fresh unused.focus unused.waiting (unused.charted g) unused.current unused.task?

end Unused

structure Truthful (S : Site) (g : Plan) (w : World) : Prop where
  circles : ∀ {r : Ref .failure} {names}, w.heap.get r = Fault.circular names → g.Circle names
  loaded : ∀ {s label item}, S.record? w (.text s) = some ⟨label, .phase .loaded, item⟩ →
    g.Grounded s
  cached : ∀ {s}, S.Cached w s → g.Grounded s

theorem Charted.truthful (charted : S.Charted g w) : S.Truthful g w :=
  ⟨charted.circles, fun found => (charted.loaded found).1, charted.cached⟩

theorem Truthful.beside (truthful : S.Truthful g w) (beside : w.Beside v) : S.Truthful g v where
  circles is := (circles_of_straight beside.straight is).elim truthful.circles id
  loaded found := truthful.loaded ((beside.same.record? _).symm.trans found)
  cached known := truthful.cached (beside.same.cached.mp known)

theorem beside_failure (w : World) {f : Fault} (straight : f.isCircular = false) :
    w.Beside (w.alloc .failure f) where
  straight := World.straight_alloc w straight
  parts r part := World.get_alloc_kind (k := .failure) f (by rintro rfl; simp at part)

theorem beside_resumed (w : World) (t : Ref .future) (jobs : List Job) : w.Beside (w.resumed t jobs) :=
  .trans (.set w t _ (.inl rfl)) (.ofHeapEq rfl)

/-- Along a run of a host that keeps to a plan, the state of the loader is true to it. -/
theorem truthful_run (unused : S.Unused start)
    (run : Machine.Run host.meaning (S.charting g) start m) : S.Truthful g m.world := by
  have meets : (S.charting g).Meets (S.protocol host).conduct := charting_meets S g
  refine Protocol.always (charter_lawful S g host) (unused.charted_good g host)
    (fun run idle => ?_) Charted.truthful Charted.truthful
    (fun straight truthful => truthful.beside (beside_failure _ straight))
    (fun truthful => truthful.beside (beside_resumed _ _ _)) unused.focus
    (Protocol.run_backed (protocol_lawful host) unused.good (fun _ _ => trivial) meets run)
  exact (tidy_run unused.toFresh (run.meets (Protocol.backed_meets meets)) idle).1

/-- Whoever is told of a circle of dependencies is told of one that there is, and what leads to a
circle is never loaded and never cached. -/
theorem circles_refused (S : Site) (host : Host) (g : Plan) {start m : Machine}
    (unused : S.Unused start) (run : Machine.Run host.meaning (S.charting g) start m) :
    (∀ (r : Ref .failure) names, m.world.heap.get r = Fault.circular names → g.Circle names) ∧
      ((∀ s, ¬ TransGen g.Needs s s) →
        ∀ (r : Ref .failure) names, m.world.heap.get r ≠ Fault.circular names) ∧
      ∀ s c, ReflTransGen g.Needs s c → TransGen g.Needs c c →
        (∀ label item, S.record? m.world (.text s) ≠ some ⟨label, .phase .loaded, item⟩) ∧
          ¬ S.Cached m.world s := by
  have truthful := truthful_run unused run
  refine ⟨fun r names is => truthful.circles is, fun acyclic r names is => ?_, fun s c path cycle => ?_⟩
  · obtain ⟨s, -, cycle⟩ := (truthful.circles is).cycle
    exact acyclic s cycle
  · have circular := Plan.not_grounded path cycle
    exact ⟨fun label item found => circular (truthful.loaded found),
      fun known => circular (truthful.cached known)⟩

/-! ## Two names that depend on each other -/

theorem Requests.asks (requests : S.Requests g w v) : S.Asks w v := by
  cases requests with
  | load name => exact .load name _
  | fetch name => exact .fetch name _
  | register name deps factory _ => exact .register name deps factory
  | declare name deps factory _ => exact .declare name deps factory
  | start live is => exact .start live is

theorem run_requests {e : Edit Value} (fresh : S.Fresh start)
    (run : Machine.Run host.meaning (S.charting g) start m) (idle : m.focus = none)
    (requests : S.Requests g m.world (e.after m.world).2) :
    Machine.Run host.meaning (S.charting g) start (m.after e) := by
  have moved := requests.asks.moves (tidy_run fresh (run.meets (charting_meets S g)) idle).1
  refine run.after idle ⟨⟨fun d live => moved.evolves.follows d live,
    fun _ => .inr ⟨requests.asks, fun _ => rfl⟩, by simp⟩, fun _ => .inr requests, by simp⟩
      fun _ => ⟨by simp, by simp, by simp⟩

theorem charting_registering (fresh : S.Fresh start) (s : String)
    (run : Machine.Run host.meaning (S.charting g) start m) (idle : m.focus = none) :
    Machine.Run host.meaning (S.charting g) start (S.registering g s m) := by
  have near := Routine.near_after (newList ((g s).map .str)) m.world
  have listed : Machine.Run host.meaning (S.charting g) start (m.after (newList ((g s).map .str))) :=
    run.after idle ⟨⟨fun d live => near.still.evolves.follows d live, fun _ => .inl near.still,
      by simp⟩, fun _ => .inl near.mute, by simp⟩ fun _ => ⟨by simp, by simp, by simp⟩
  refine run_requests fresh listed rfl ?_
  rw [Machine.world_map]
  refine .register _ _ _ fun t is => ?_
  cases is
  exact congrArg some (Heap.get_alloc_fresh ..)

theorem lists_of_loads {w : World} {l : Ref .loader} {d : Ref .draft}
    (loads : w.loads g (some (.loadDependencies l (.obj .draft d))) = true) : w.Lists g d := by
  intro s name
  obtain ⟨keeps, -⟩ := Bool.and_eq_true_iff.mp loads
  unfold World.keepsTo at keeps
  simp only [name] at keeps
  split at keeps <;> rename_i truthy <;> simp only [truthy, if_true, Bool.false_eq_true, if_false] <;>
    exact of_decide_eq_true keeps

/-- What the library does without a host is expected of one that keeps to the plan. -/
theorem charting_of_unaided (unaided : S.unaided g m = true) : (S.charting g).Observed m := by
  intro x focus
  have observed := observed_of_unaided unaided x focus
  unfold Site.unaided at unaided
  rw [focus] at unaided
  obtain ⟨inner, fits⟩ := Bool.and_eq_true_iff.mp unaided
  cases code : x.code with
  | done v =>
    rw [code] at fits
    obtain ⟨loads, delivers⟩ := Bool.and_eq_true_iff.mp fits
    refine ⟨fun l d y is _ => ?_, fun l s p d is => ?_, fun n d r is same => ?_⟩
    · rw [is] at loads
      exact lists_of_loads loads
    · rw [is] at delivers
      cases delivers
    · cases same
      rw [is] at delivers
      obtain ⟨delivers, -⟩ := Bool.and_eq_true_iff.mp delivers
      obtain ⟨live, name⟩ := Bool.and_eq_true_iff.mp delivers
      exact ⟨of_decide_eq_true live, of_decide_eq_true name⟩
  | fail e => exact ⟨by simp, by simp, by simp⟩
  | write w k =>
    rw [code] at fits observed
    obtain ⟨-, loads⟩ := Bool.and_eq_true_iff.mp fits
    refine ⟨observed, fun hosted => absurd hosted (not_hosted inner), fun l d is => ?_⟩
    rw [is] at loads
    exact lists_of_loads loads
  | call b k =>
    rw [code] at fits observed
    refine ⟨observed, ?_, ?_, ?_⟩
    · rintro args rfl
      exact linking_of_links (linker_of_answers fits).2.2
    · rintro codes rfl
      cases fits
    · rintro l y rfl
      cases fits
  | read => trivial
  | pause | await =>
    rw [code] at observed
    exact observed

theorem unused_newManager : only.Unused newManager where
  toFresh := fresh_newManager
  plain f := by
    have dead : ¬ newManager.world.heap.Live f := Nat.not_lt_zero f.id
    rw [Heap.get_not_live dead]
    rfl
  cached s known := known rfl
  circles r names is := by
    have dead : ¬ newManager.world.heap.Live r := Nat.not_lt_zero r.id
    rw [Heap.get_not_live dead] at is
    cases is

def pair : Plan := fun s => if s = "a" then ["b"] else ["a"]

def entangled : Machine := (only.registering pair "a" (only.registering pair "b" newManager)).after
  (Loader.load only.loader (.str "a") .none)

theorem charting_entangled :
    Machine.Run (Host.ofScripts {}).meaning (only.charting pair) newManager entangled := by
  have first : Machine.Run (Host.ofScripts {}).meaning (only.charting pair) newManager _ :=
    charting_registering fresh_newManager "b" .start rfl
  have next := charting_registering fresh_newManager "a" first rfl
  exact run_requests (e := Loader.load only.loader (.str "a") .none) fresh_newManager next rfl (.load _)

def untangled : Machine := entangled.run (Host.ofScripts {}).meaning 102

/-- The circle has been found; nothing is loaded or cached. -/
theorem circles_refused_pair :
    untangled.world.heap.get (⟨0⟩ : Ref .failure) = Fault.circular ["b", "a", "b"] ∧ pair.Circle ["b", "a", "b"] ∧
      (∀ label item, only.record? untangled.world (.text "a") ≠ some ⟨label, .phase .loaded, item⟩) ∧
      ¬ only.Cached untangled.world "a" := by
  have heeds : Machine.heeds (Host.ofScripts {}).meaning (only.unaided pair) 102 entangled = true := by
    decide +kernel
  have run : Machine.Run (Host.ofScripts {}).meaning (only.charting pair) newManager untangled :=
    charting_entangled.onward charting_of_unaided heeds
  have raised : untangled.world.heap.get (⟨0⟩ : Ref .failure) = Fault.circular ["b", "a", "b"] := by decide +kernel
  have path : TransGen pair.Needs "a" "a" :=
    .tail (.single (by decide : "b" ∈ pair "a")) (by decide : "a" ∈ pair "b")
  obtain ⟨circle, -, refused⟩ := circles_refused only _ pair unused_newManager run
  exact ⟨raised, circle _ _ raised, refused "a" "a" .refl path⟩

end AsyncImport.Site
