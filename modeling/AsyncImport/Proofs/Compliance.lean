import AsyncImport.Proofs.Settling

/-!
# All tasks keep to the protocol

Every activity of a site, and every step of a host that behaves as expected, keeps to the protocol.
Along a run the state of the loader is therefore in order whenever nobody is in focus.
-/

namespace AsyncImport

namespace Site

open Edit Protocol

variable {S : Site} {u v w : World} {host : Host} {α β : Type} {a : Option Activity}

/-! ## Fetching -/

theorem steady_pipelineDraft {l : Ref .loader} {n p : Value} {s : String} (orderly : S.Orderly w)
    (anchored : S.Anchored w) (inside : S.Inside w s) (draft : Value) :
    S.Steady host (some (.fetchDraft l n p)) (Loader.pipelineDraft S.loader draft) w := by
  unfold Loader.pipelineDraft
  refine steady_first orderly fun d v _ _ keeps => ?_
  refine steady_first keeps.orderly fun _ v _ _ later => ?_
  have keeps := keeps.trans later
  refine steady_first keeps.orderly fun c v _ _ later => ?_
  have keeps := keeps.trans later
  split
  · refine steady_perform keeps.orderly fun calls => ?_
    obtain ⟨e, rfl, named⟩ := calls.named S.loader draft s rfl (keeps.inside inside)
    exact ⟨rfl, s, e, keeps.inside inside, rfl, named⟩
  · refine steady_first keeps.orderly fun loader v _ _ later => ?_
    have keeps := keeps.trans later
    split
    · exact steady_freely keeps.orderly (keeps.anchored anchored)
        (fun _ _ _ _ => ⟨s, keeps.inside inside⟩) (Routine.within_runPipeline roomy_freely _ _ _ trivial)
    · exact steady_raise keeps.orderly _

theorem steady_fetchDraft {parent : Value} {s : String} (orderly : S.Orderly w)
    (anchored : S.Anchored w) (inside : S.Inside w s) :
    S.Steady host (some (.fetchDraft S.loader (.str s) parent))
      (Loader.fetchDraft S.loader (.str s) parent) w := by
  unfold Loader.fetchDraft
  refine steady_first orderly fun loader v _ _ keeps => ?_
  refine steady_bind (steady_freely keeps.orderly (keeps.anchored anchored)
    (fun _ _ _ _ => ⟨s, keeps.inside inside⟩)
    (Routine.within_fetchStage roomy_freely _ _ _ trivial)) fun d v later => ?_
  have keeps := keeps.trans later
  exact steady_pipelineDraft keeps.orderly (keeps.anchored anchored) (keeps.inside inside) _

theorem steady_transformStage {manager draft : Value} (orderly : S.Orderly w)
    (anchored : S.Anchored w) : S.Steady host (some (.transformStage manager draft))
      (do return .obj .draft (← Stage.transform manager draft) : Routine Value) w :=
  steady_bind (steady_freely orderly anchored (by simp)
    (Routine.within_transformStage roomy_freely _ _ trivial)) fun _ _ keeps =>
      steady_done keeps.orderly _

theorem steady_dependencyStage {draft : Value} {s : String} (orderly : S.Orderly w)
    (anchored : S.Anchored w) (inside : S.Inside w s) :
    S.Steady host (some (.dependencyStage (.obj .manager S.manager) draft)) (do
      let d ← Stage.dependencies (.obj .manager S.manager) draft
      Routine.perform (.loadDependencies
        (← Edit.read (← asManager (.obj .manager S.manager))).loader (.obj .draft d))) w := by
  refine steady_bind (steady_freely orderly anchored (by simp)
    (Routine.within_dependencies roomy_freely _ _ trivial)) fun d v keeps => ?_
  refine steady_first keeps.orderly fun m v _ run later => ?_
  cases run
  have keeps := keeps.trans later
  refine steady_first keeps.orderly fun manager v _ run later => ?_
  cases run
  have keeps := keeps.trans later
  rw [keeps.stands.serves]
  refine steady_perform keeps.orderly fun calls => ?_
  obtain ⟨e, same, named⟩ := calls.named S.loader _ s rfl (keeps.inside inside)
  cases same
  exact ⟨rfl, s, d, keeps.inside inside, rfl, named⟩

/-! ## Activities -/

theorem steady_meaning {b : Activity} (orderly : S.Orderly w) (fit : S.Fit w b) :
    S.Steady host (some b) (host.meaning b) w := by
  cases b with
  | host n args =>
    refine steady_hosted (a := some (.host n args)) trivial _ orderly ⟨by simp, ?_⟩
    by_cases may : w.MayWait n
    · exact .inl (fit may)
    · exact .inr may
  | invoke f args => exact steady_callWith orderly fit fun bound => ⟨bound, bound⟩
  | produce f args => exact steady_callWith orderly fit fun bound => ⟨bound, bound⟩
  | awaitValue v => exact steady_settled orderly fit
  | transformStage m d => exact steady_transformStage orderly fit
  | dependencyStage m d =>
    obtain ⟨anchored, rfl, s, inside⟩ := fit
    exact steady_dependencyStage orderly anchored inside
  | compileStage m d =>
    exact steady_plainly orderly (Routine.within_compileStage plain_plainly _ _ trivial)
  | fetchDraft l n p =>
    obtain ⟨rfl, anchored, s, rfl, inside⟩ := fit
    exact steady_fetchDraft orderly anchored inside
  | loadDependencies l d =>
    obtain ⟨rfl, s, d, inside, rfl, named⟩ := fit
    exact steady_loadDependencies orderly inside named
  | link l x =>
    obtain rfl : l = S.loader := fit
    exact steady_link orderly x
  | buildNow l n =>
    obtain rfl : l = S.loader := fit
    exact steady_buildNow orderly n
  | build l n =>
    obtain ⟨rfl, s, t, rfl, own, builds⟩ := fit
    exact steady_build own builds orderly
  | importNames m x =>
    obtain ⟨rfl, anchored⟩ := fit
    exact steady_importNames orderly anchored x
  | importModule m x =>
    obtain ⟨rfl, anchored⟩ := fit
    exact steady_importModule orderly anchored x
  | require m x =>
    obtain rfl : m = S.manager := fit
    exact steady_managerRequire orderly x
  | runStages | runPlugin | runFanout | runRegistry | resolveHandler | fetchStage | pipelineDraft
    | transformOptions | buildFetched | buildReported | settle => exact fit.elim

/-! ## Tasks -/

section

variable {t : Ref .future} {s : String}

theorem steady_buildReported (own : w.current = some t) (builds : S.Builds w t s)
    (orderly : S.Orderly w) :
    S.Steady host a (Loader.buildReported S.loader (.str s)) w := by
  unfold Loader.buildReported Routine.rescue
  refine steady_andThen (steady_build own builds orderly) (fun x v keeps => steady_done keeps.orderly x)
    fun e v keeps => ?_
  show S.Steady host a (if (v.heap.get e).ordinary then _ else _) v
  split
  · refine steady_first keeps.orderly fun m v _ _ keeps => ?_
    exact steady_bind (steady_plainly keeps.orderly (Routine.within_report plain_plainly.telling m _ _ trivial))
      fun _ v keeps => steady_fail keeps.orderly e
  · exact steady_fail keeps.orderly e

theorem steady_buildFetched {f : Ref .future} (own : w.current = some t) (builds : S.Builds w t s)
    (orderly : S.Orderly w) (live : w.heap.Live f)
    (fetches : (w.heap.get f).status = .waiting → ∃ work, S.Settles w f s work) :
    S.Steady host a (Loader.buildFetched S.loader (.str s) (.obj .future f)) w := by
  unfold Loader.buildFetched
  refine steady_bind (steady_draft own builds orderly live fun waiting => .inl (fetches waiting))
    fun _ v keeps => ?_
  exact steady_buildReported (keeps.current.trans own) (builds.mono keeps.evolves) keeps.orderly

theorem ends_of_keeps {b : Activity} (own : w.current = some t)
    (activity : (w.heap.get t).activity? = some b)
    (settles : ∀ name work markLoaded report, b ≠ .settle S.loader name work markLoaded report)
    (born : S.Born t w) (keeps : S.Keeps w v) (o : Outcome) : S.Tidy (v.ended t o) := by
  have own' := keeps.current.trans own
  have task := (keeps.orderly.runs t own').task?
  have after := activity_mono keeps.evolves activity
  refine keeps.orderly.tidy.ended own' o task (fun {r} loading => ?_) fun {r} owns => ?_
  · obtain ⟨_, x, _, _, same⟩ := keeps.orderly.tidy.loads loading
    exact settles _ _ _ _ (Option.some.inj (after.symm.trans same))
  · have owning : S.Owning b := by
      rcases owns.activity with ⟨_, _, _, same⟩ | ⟨d, same, _⟩ <;>
        obtain rfl := Option.some.inj (after.symm.trans same) <;> rfl
    obtain ⟨s, owned, idle⟩ := born b activity owning
    obtain ⟨owned, same⟩ := (keeps.rely t own).owns owned
    obtain rfl := owns.unique owned
    exact same.trans idle

/-- A task that is in order keeps to the protocol from its first step to its end. -/
theorem safe_start {b : Activity} {jobs : List Job} (tidy : S.Tidy w) (idle : w.current = none)
    (task : w.task? t = some b) (ready : w.ready = .step t :: jobs) (born : S.Born t w) :
    (S.protocol host).Safe (some b) (fun o v => S.Tidy (v.ended t o)) (host.meaning b)
      (w.resumed t jobs) := by
  have passes := World.passes_resumed w t jobs
  have evolves := passes.turns.evolves
  have orderly : S.Orderly (w.resumed t jobs) :=
    ⟨tidy.resumed idle ready (by simp [task]) (.inl rfl), fun u is => by
      obtain rfl := Option.some.inj is
      exact World.runs_resumed jobs (by simp [task])⟩
  have own : (w.resumed t jobs).current = some t := rfl
  have activity := activity_mono evolves (activity_of_task task)
  have rely : S.Rely t w (w.resumed t jobs) :=
    (Same.ofTurns tidy.stands passes.turns).rely evolves t
  have born' : S.Born t (w.resumed t jobs) := fun c known owning => by
    obtain ⟨s, owns, next⟩ := born c ((activity?_passes passes t).symm.trans known) owning
    obtain ⟨owns, same⟩ := rely.owns owns
    exact ⟨s, owns, same.trans next⟩
  have errand := (tidy.errands task).mono evolves
  have ended {r : Routine Value} (steady : S.Steady host (some b) r (w.resumed t jobs))
      (settles : ∀ name work markLoaded report, b ≠ .settle S.loader name work markLoaded report) :
      (S.protocol host).Safe (some b) (fun o v => S.Tidy (v.ended t o)) r (w.resumed t jobs) :=
    steady.mono fun o v keeps => ends_of_keeps own activity settles born' keeps o
  have anchored (roams : S.Roams (w.resumed t jobs) t) :
      S.Anchored (w.resumed t jobs) := fun u is => Option.some.inj is ▸ roams
  -- what the task was made for decides what it counts on
  cases errand with
  | @settle name work markLoaded report =>
    obtain ⟨s, rfl, is, loading | is'⟩ := tidy.settling task
    · refine (safe_settle orderly own (rely.loading.mpr loading) ⟨_, _, activity⟩ (is.mono evolves)
        fun c same => ?_).mono fun o v landed => landed.ended o
      subst same
      obtain ⟨r, owns, next⟩ := born' _ activity rfl
      have mine : S.Settles (w.resumed t jobs) t s (.obj .coroutine c) := ⟨_, _, activity⟩
      rwa [owns.unique (.fetching (rely.loading.mpr loading) mine)]
    · simp [idle] at is'
  | @loadDependencies draft =>
    obtain ⟨s, owns⟩ := tidy.loading task
    obtain ⟨r, owned, next⟩ := born' _ activity rfl
    rcases owns.activity with ⟨_, _, _, same⟩ | ⟨d, same, live, named⟩
    · simp [activity_of_task task] at same
    · obtain rfl : draft = .obj .draft d := by simpa [activity_of_task task] using same
      have kept : ((w.resumed t jobs).heap.get d).name = _ := evolves.follows d live
      obtain rfl := owned.unique (rely.owns owns).1
      exact ended (steady_loadDependencies orderly ⟨t, own, owned, next⟩ (kept.trans named)) (by simp)
  | buildReported =>
    exact ended (steady_buildReported own (.inl activity) orderly) (by simp)
  | buildFetched live fetches =>
    exact ended (steady_buildFetched own (.inr ⟨_, activity⟩) orderly live fetches) (by simp)
  | opened is =>
    refine ended (steady_meaning orderly (is.fit (anchored (.opened activity is)))) ?_
    rintro name work markLoaded report rfl
    exact is
  | again live is =>
    refine ended (steady_meaning orderly ⟨anchored (.again activity), live, ?_⟩) (by simp)
    split
    · trivial
    · next same => exact (same ▸ is : S.Open (.dependencyStage _ _)).elim
    · exact is

end

/-- All tasks and all steps of a host that behaves as expected keep to the protocol. -/
theorem protocol_lawful (host : Host) : (S.protocol host).Lawful where
  endures := World.Evolves.endures
  lasting := World.Evolves.trans
  passing := World.Turns.evolves
  sparing := sparing_strict
  dropped _ tidy _ task flagged _ := absurd flagged (Machine.Calm.not_flagged tidy.calm task)
  trans first next stands :=
    ⟨(next (first stands).1).1, (first stands).2.trans (next (first stands).1).2⟩
  turn {t w v} turns stands :=
    ⟨stands.mono turns.evolves, (Same.ofTurns stands turns).rely turns.evolves t⟩
  born := by
    rintro t w v ⟨stands, born⟩ later
    obtain ⟨stands', rely⟩ := later.rely stands
    refine ⟨stands', fun b activity owning => ?_⟩
    have spares : World.Spares t w v := later.spares
    have same : (v.heap.get t).activity? = (w.heap.get t).activity? := by
      simp [Future.activity?, spares.origin]
    obtain ⟨s, owns, idle⟩ := born b (same.symm.trans activity) owning
    obtain ⟨owns, kept⟩ := rely.owns owns
    exact ⟨s, owns, kept.trans idle⟩
  failure tidy := (moves_still (World.still_failure _ _) tidy).tidy
  report _ tidy idle ready := tidy.report idle ready
  idle _ tidy idle ready nothing := tidy.popped idle ready nothing
  spec := by
    rintro - a w ⟨orderly, fit⟩
    exact (steady_meaning orderly fit).mono fun o v keeps _ => keeps
  start := by
    rintro t a w jobs - tidy idle task ready - ⟨-, born⟩
    exact (safe_start tidy idle task ready born).mono fun o v tidy _ => ⟨tidy, trivial⟩
  visit := by
    intro w r _ tidy idle
    refine (steady_hosted (a := none) trivial r ⟨tidy, by simp [idle]⟩ ⟨fun _ => idle, .inl ?_⟩).mono
      fun o v keeps _ => keeps.orderly.tidy
    intro t own
    simp [idle] at own

end Site
end AsyncImport
