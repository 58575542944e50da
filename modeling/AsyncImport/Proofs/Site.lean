import AsyncImport.Manager.Create
import AsyncImport.Proofs.WaitGraph
import AsyncImport.Proofs.Wiring

/-!
# The state of a loader

What a loader's records, tasks and wait-for graph have to do with each other. A name is in flight
while a task settles its record; that task or, for a registered name, the one that loads its
dependencies owns the edges of the name.
-/

namespace AsyncImport

open Relation

/-- A manager with the loader, the store and the pipeline that belong to it. -/
structure Site where
  manager : Ref .manager
  loader : Ref .loader
  store : Ref .store
  pipeline : Ref .pipeline
  /-- Whether the functions of the host keep away from the manager and from futures. -/
  aloof : Prop

namespace Site

variable (S : Site)

structure Stands (w : World) : Prop where
  manager : w.heap.Live S.manager
  loader : w.heap.Live S.loader
  store : w.heap.Live S.store
  pipeline : w.heap.Live S.pipeline
  serves : (w.heap.get S.manager).loader = S.loader
  works : (w.heap.get S.loader).manager = .obj .manager S.manager
  stores : (w.heap.get S.loader).store = S.store
  runs : (w.heap.get S.loader).pipeline = .obj .pipeline S.pipeline
  stages : (w.heap.get S.pipeline).stages = Loader.stages

def record? (w : World) (k : Key) : Option Record := (w.heap.get S.store).records.get? k

def waits (w : World) : Waits := (w.heap.get S.loader).waits

def next (w : World) (s : String) : List Key := (S.waits w).next (.text s)

def Cached (w : World) (s : String) : Prop := (w.heap.get S.manager).modules.get? s ≠ none

def Loading (w : World) (s : String) (t : Ref .future) : Prop :=
  ∃ label, S.record? w (.text s) = some ⟨label, .phase .loading, .obj .future t⟩

def Settles (w : World) (t : Ref .future) (s : String) (work : Value) : Prop :=
  ∃ markLoaded report,
    (w.heap.get t).activity? = some (.settle S.loader (.str s) work markLoaded report)

def Loads (w : World) (t : Ref .future) (s : String) : Prop :=
  ∃ d, (w.heap.get t).activity? = some (.loadDependencies S.loader (.obj .draft d)) ∧
    w.heap.Live d ∧ (w.heap.get d).name = .str s

/-- What the record of a name waits for: that its draft is fetched, or that the dependencies of its
registration are loaded. -/
inductive Work (w : World) (s : String) : Value → Prop
  | fetch {c : Ref .coroutine} {parent : Value} (live : w.heap.Live c)
      (activity : (w.heap.get c).activity = .fetchDraft S.loader (.str s) parent) :
      Work w s (.obj .coroutine c)
  | registered {f : Ref .future} (loads : S.Loads w f s) : Work w s (.obj .future f)

/-- A task has the edges of a name in its hands. -/
inductive Owns (w : World) (t : Ref .future) (s : String) : Prop
  | fetching {c : Ref .coroutine} (loading : S.Loading w s t)
      (settles : S.Settles w t s (.obj .coroutine c))
  | registered {u : Ref .future} (loading : S.Loading w s u)
      (settles : S.Settles w u s (.obj .future t)) (loads : S.Loads w t s)

def Awaits (w : World) (s d : String) : Prop :=
  ∃ t g members f work, S.Owns w t s ∧ (w.heap.get t).waitsFor? = some g ∧
    (w.heap.get g).members? = some members ∧ f ∈ members ∧ (w.heap.get f).status = .waiting ∧
    S.Settles w f d work

structure Edge (w : World) (a b : Key) : Prop where
  edge : (S.waits w).Edge a b
  aside : ∀ t s, w.current = some t → a = .text s → ¬ S.Owns w t s
  counts : ∀ d, b = .text d → S.Cached w d → ∃ s, a = .text s ∧ S.Awaits w s d

def Open : Activity → Prop
  | .host _ _ => True
  | .importNames m _ => m = S.manager
  | .importModule m _ => m = S.manager
  | _ => False

inductive Sound (w : World) (s : String) : Record → Prop
  | loading {label work : Value} {t : Ref .future} (task : w.task? t ≠ none)
      (settles : S.Settles w t s work) : Sound w s ⟨label, .phase .loading, .obj .future t⟩
  | pending {label : Value} {d : Ref .draft} (live : w.heap.Live d)
      (name : (w.heap.get d).name = .str s) : Sound w s ⟨label, .phase .pending, .obj .draft d⟩
  | loaded {label item : Value} : Sound w s ⟨label, .phase .loaded, item⟩

inductive Errand (w : World) : Activity → Prop
  | settle {name work : Value} {markLoaded report : Bool} :
      Errand w (.settle S.loader name work markLoaded report)
  | loadDependencies {draft : Value} : Errand w (.loadDependencies S.loader draft)
  | buildReported {s : String} : Errand w (.buildReported S.loader (.str s))
  | buildFetched {s : String} {f : Ref .future} (live : w.heap.Live f)
      (fetches : (w.heap.get f).status = .waiting → ∃ work, S.Settles w f s work) :
      Errand w (.buildFetched S.loader (.str s) (.obj .future f))
  | opened {a : Activity} (is : S.Open a) : Errand w a
  | again {c : Ref .coroutine} (live : w.heap.Live c) (is : S.Open (w.heap.get c).activity) :
      Errand w (.awaitValue (.obj .coroutine c))

def Builds (w : World) (t : Ref .future) (s : String) : Prop :=
  (w.heap.get t).activity? = some (.buildReported S.loader (.str s)) ∨
    ∃ fetching, (w.heap.get t).activity? = some (.buildFetched S.loader (.str s) fetching)

inductive Roams (w : World) (t : Ref .future) : Prop
  | opened {a : Activity} (activity : (w.heap.get t).activity? = some a) (is : S.Open a)
  | again {v : Value} (activity : (w.heap.get t).activity? = some (.awaitValue v))
  | fetching {s : String} {c : Ref .coroutine} (loading : S.Loading w s t)
      (settles : S.Settles w t s (.obj .coroutine c)) (idle : S.next w s = [])

structure Gathering (w : World) (g : Ref .future) (P : Ref .future → Prop) : Prop where
  live : w.heap.Live g
  members : ∃ members, (w.heap.get g).members? = some members ∧ ∀ f ∈ members, w.heap.Live f ∧
    ((w.heap.get f).status = .waiting → P f)

def Building (w : World) (f : Ref .future) : Prop :=
  (∃ s, S.Builds w f s) ∨ Gathering w f fun g => ∃ s, S.Builds w g s

inductive Expects (w : World) (t f : Ref .future) : Prop
  /-- The work that a record waits for. -/
  | work {s : String} (settles : S.Settles w t s (.obj .future f))
  /-- Fetches of names that a name has edges to. -/
  | fetches {s : String} (owns : S.Owns w t s) (fetches : Gathering w f fun g =>
      ∃ d work, S.Settles w g d work ∧ .text d ∈ S.next w s)
  /-- The draft of a name that is built. -/
  | draft {s : String} (builds : S.Builds w t s)
      (is : (∃ work, S.Settles w f s work) ∨ S.Loads w f s)
  | roams (roams : S.Roams w t) (aloof : S.aloof → S.Building w f)

structure Tidy (w : World) : Prop where
  stands : S.Stands w
  calm : ∀ {t : Ref .future} {a f c}, (w.heap.get t).status = .waiting → (w.heap.get t).origin = .task a f c →
    c = false
  errands : ∀ {t a}, w.task? t = some a → S.Errand w a
  records : ∀ {k r}, S.record? w k = some r → ∃ s, k = .text s ∧ S.Sound w s r
  settling : ∀ {t name work markLoaded report},
    w.task? t = some (.settle S.loader name work markLoaded report) →
    ∃ s, name = .str s ∧ S.Work w s work ∧ (S.Loading w s t ∨ w.current = some t)
  loading : ∀ {t draft}, w.task? t = some (.loadDependencies S.loader draft) → ∃ s, S.Owns w t s
  edges : ∀ {k}, (S.waits w).next k ≠ [] → ∃ s t, k = .text s ∧ S.Owns w t s ∧ w.task? t ≠ none
  acyclic : ∀ k, ¬ TransGen (S.Edge w) k k
  wired : w.Wired
  blocked : ∀ {t f}, w.task? t ≠ none → w.current ≠ some t →
    (w.heap.get t).waitsFor? = some f → S.Expects w t f

structure Rely (t : Ref .future) (w v : World) : Prop where
  owns : ∀ {s}, S.Owns w t s → S.Owns v t s ∧ S.next v s = S.next w s
  loading : ∀ {s}, S.Loading v s t ↔ S.Loading w s t

def Owning : Activity → Prop
  | .settle l _ (.obj .coroutine _) _ _ => l = S.loader
  | .loadDependencies l _ => l = S.loader
  | _ => False

def Born (t : Ref .future) (w : World) : Prop :=
  ∀ a, (w.heap.get t).activity? = some a → S.Owning a → ∃ s, S.Owns w t s ∧ S.next w s = []

structure Moved (w v : World) : Prop where
  evolves : w.Evolves v
  current : v.current = w.current
  spares : ∀ t, w.task? t ≠ none → World.Spares t w v
  rely : ∀ t, w.task? t ≠ none → S.Rely t w v
  born : ∀ t, w.task? t = none → v.task? t ≠ none → S.Born t v ∧ (v.heap.get t).waitsFor? = none
  waits : S.waits v = S.waits w
  tidy : S.Tidy v

variable {S} {u w v : World}

/-! ## What lasts -/

theorem Stands.mono (stands : S.Stands w) (evolves : w.Evolves v) : S.Stands v := by
  obtain ⟨modules, manager, -⟩ : Cell.Follows .manager _ _ := evolves.follows S.manager stands.manager
  obtain ⟨waits, loader⟩ : Cell.Follows .loader _ _ := evolves.follows S.loader stands.loader
  have pipeline : v.heap.get S.pipeline = w.heap.get S.pipeline :=
    evolves.follows S.pipeline stands.pipeline
  exact
    { manager := evolves.live stands.manager
      loader := evolves.live stands.loader
      store := evolves.live stands.store
      pipeline := evolves.live stands.pipeline
      serves := by rw [manager]; exact stands.serves
      works := by rw [loader]; exact stands.works
      stores := by rw [loader]; exact stands.stores
      runs := by rw [loader]; exact stands.runs
      stages := by rw [pipeline]; exact stands.stages }

theorem Cached.mono (evolves : w.Evolves v) {s : String} (cached : S.Cached w s) : S.Cached v s := by
  have live : w.heap.Live S.manager := by
    by_contra dead
    unfold Cached at cached
    rw [Heap.get_not_live dead] at cached
    exact cached rfl
  obtain ⟨modules, manager, grows⟩ : Cell.Follows .manager _ _ := evolves.follows S.manager live
  unfold Cached
  rw [manager]
  exact grows s cached

theorem live_of_activity {t : Ref .future} {a : Activity}
    (activity : (w.heap.get t).activity? = some a) : w.heap.Live t := by
  by_contra dead
  rw [Heap.get_not_live dead] at activity
  cases activity

theorem activity_mono (evolves : w.Evolves v) {t : Ref .future} {a : Activity}
    (activity : (w.heap.get t).activity? = some a) : (v.heap.get t).activity? = some a := by
  have follows : Future.Follows _ _ := evolves.follows t (live_of_activity activity)
  rw [follows.activity, activity]

theorem Settles.mono (evolves : w.Evolves v) {t : Ref .future} {s : String} {work : Value}
    (settles : S.Settles w t s work) : S.Settles v t s work := by
  obtain ⟨markLoaded, report, activity⟩ := settles
  exact ⟨markLoaded, report, activity_mono evolves activity⟩

theorem Loads.live {t : Ref .future} {s : String} (loads : S.Loads w t s) : w.heap.Live t := by
  obtain ⟨_, activity, _⟩ := loads
  exact live_of_activity activity

theorem Loads.mono (evolves : w.Evolves v) {t : Ref .future} {s : String} (loads : S.Loads w t s) :
    S.Loads v t s := by
  obtain ⟨d, activity, live, name⟩ := loads
  have kept : (v.heap.get d).name = (w.heap.get d).name := evolves.follows d live
  exact ⟨d, activity_mono evolves activity, evolves.live live, kept.trans name⟩

theorem Work.mono (evolves : w.Evolves v) {s : String} {work : Value} (is : S.Work w s work) :
    S.Work v s work := by
  cases is with
  | @fetch c _ live activity =>
    have kept : (v.heap.get c).activity = (w.heap.get c).activity := evolves.follows c live
    exact .fetch (evolves.live live) (kept.trans activity)
  | registered loads => exact .registered (loads.mono evolves)

theorem Errand.mono (evolves : w.Evolves v) {a : Activity} (errand : S.Errand w a) :
    S.Errand v a := by
  cases errand with
  | settle => exact .settle
  | loadDependencies => exact .loadDependencies
  | buildReported => exact .buildReported
  | @buildFetched s f live fetches =>
    refine .buildFetched (evolves.live live) fun waiting => ?_
    have follows : Future.Follows (w.heap.get f) (v.heap.get f) := evolves.follows f live
    by_cases undone : (w.heap.get f).status = .waiting
    · obtain ⟨work, settles⟩ := fetches undone
      exact ⟨work, settles.mono evolves⟩
    · rw [follows.status undone] at waiting
      exact absurd waiting undone
  | opened is => exact .opened is
  | @again c live is =>
    have kept : (v.heap.get c).activity = (w.heap.get c).activity := evolves.follows c live
    exact .again (evolves.live live) (kept ▸ is)

theorem Owns.mono (evolves : w.Evolves v) (kept : ∀ {s t}, S.Loading w s t → S.Loading v s t)
    {t : Ref .future} {s : String} (owns : S.Owns w t s) : S.Owns v t s := by
  cases owns with
  | fetching loading settles => exact .fetching (kept loading) (settles.mono evolves)
  | registered loading settles loads =>
    exact .registered (kept loading) (settles.mono evolves) (loads.mono evolves)

theorem Owns.live {t : Ref .future} {s : String} (owns : S.Owns w t s) : w.heap.Live t := by
  cases owns with
  | fetching _ settles =>
    obtain ⟨_, _, activity⟩ := settles
    exact live_of_activity activity
  | registered _ _ loads =>
    obtain ⟨_, activity, _⟩ := loads
    exact live_of_activity activity

theorem Builds.mono (evolves : w.Evolves v) {t : Ref .future} {s : String} (builds : S.Builds w t s) :
    S.Builds v t s :=
  builds.imp (activity_mono evolves) fun ⟨g, activity⟩ => ⟨g, activity_mono evolves activity⟩

theorem undone_of_mono (evolves : w.Evolves v) {f : Ref .future} (live : w.heap.Live f)
    (waiting : (v.heap.get f).status = .waiting) : (w.heap.get f).status = .waiting := by
  by_contra done
  have follows : Future.Follows (w.heap.get f) (v.heap.get f) := evolves.follows f live
  exact done (follows.status done ▸ waiting)

theorem Gathering.mono (evolves : w.Evolves v) {g : Ref .future} {P R : Ref .future → Prop}
    (weaker : ∀ f, P f → R f) (gathering : Gathering w g P) : Gathering v g R := by
  obtain ⟨live, members, is, each⟩ := gathering
  have follows : Future.Follows (w.heap.get g) (v.heap.get g) := evolves.follows g live
  refine ⟨evolves.live live, members, follows.members.trans is, fun f mem => ?_⟩
  obtain ⟨lives, fits⟩ := each f mem
  exact ⟨evolves.live lives, fun waiting => weaker f (fits (undone_of_mono evolves lives waiting))⟩

theorem Building.mono (evolves : w.Evolves v) {f : Ref .future} (building : S.Building w f) :
    S.Building v f :=
  building.imp (fun ⟨s, builds⟩ => ⟨s, builds.mono evolves⟩)
    (Gathering.mono evolves fun _ ⟨s, builds⟩ => ⟨s, builds.mono evolves⟩)

theorem Loading.unique {s : String} {t u : Ref .future} (one : S.Loading w s t)
    (other : S.Loading w s u) : t = u := by
  obtain ⟨_, one⟩ := one
  obtain ⟨_, other⟩ := other
  exact (by simpa using one.symm.trans other : _ ∧ t = u).2

theorem Owns.owner {t u : Ref .future} {s : String} (one : S.Owns w t s) (other : S.Owns w u s) :
    t = u := by
  cases one with
  | fetching loading settles =>
    cases other with
    | fetching loading' _ => exact loading.unique loading'
    | registered loading' settles' _ =>
      obtain rfl := loading.unique loading'
      obtain ⟨_, _, activity⟩ := settles
      obtain ⟨_, _, same⟩ := settles'
      simp [activity] at same
  | registered loading settles _ =>
    cases other with
    | fetching loading' settles' =>
      obtain rfl := loading.unique loading'
      obtain ⟨_, _, activity⟩ := settles
      obtain ⟨_, _, same⟩ := settles'
      simp [activity] at same
    | registered loading' settles' _ =>
      obtain rfl := loading.unique loading'
      obtain ⟨_, _, activity⟩ := settles
      obtain ⟨_, _, same⟩ := settles'
      simp [activity] at same
      exact same.1

theorem Owns.unique {t : Ref .future} {s r : String} (one : S.Owns w t s) (other : S.Owns w t r) :
    r = s := by
  cases one with
  | fetching _ settles =>
    obtain ⟨_, _, activity⟩ := settles
    cases other with
    | fetching _ settles =>
      obtain ⟨_, _, same⟩ := settles
      simp [activity] at same
      exact same.1.symm
    | registered _ _ loads =>
      obtain ⟨_, same, _⟩ := loads
      simp [activity] at same
  | registered _ _ loads =>
    obtain ⟨d, activity, _, name⟩ := loads
    cases other with
    | fetching _ settles =>
      obtain ⟨_, _, same⟩ := settles
      simp [activity] at same
    | registered _ _ loads =>
      obtain ⟨e, same, _, named⟩ := loads
      simp [activity] at same
      subst same
      simpa using named.symm.trans name

theorem Roams.mono (evolves : w.Evolves v) {t : Ref .future} (rely : S.Rely t w v)
    (roams : S.Roams w t) : S.Roams v t := by
  cases roams with
  | opened activity is => exact .opened (activity_mono evolves activity) is
  | again activity => exact .again (activity_mono evolves activity)
  | fetching loading settles idle =>
    obtain ⟨owns, same⟩ := rely.owns (.fetching loading settles)
    exact .fetching (rely.loading.mpr loading) (settles.mono evolves) (same.trans idle)

theorem Expects.mono (evolves : w.Evolves v) {t f : Ref .future} (rely : S.Rely t w v)
    (expects : S.Expects w t f) : S.Expects v t f := by
  cases expects with
  | work settles => exact .work (settles.mono evolves)
  | fetches owns fetches =>
    obtain ⟨owns, same⟩ := rely.owns owns
    refine .fetches owns (fetches.mono evolves fun g ⟨d, x, settles, mem⟩ => ?_)
    exact ⟨d, x, settles.mono evolves, same ▸ mem⟩
  | draft builds is =>
    exact .draft (builds.mono evolves)
      (is.imp (fun ⟨x, settles⟩ => ⟨x, settles.mono evolves⟩) (Loads.mono evolves))
  | roams roams aloof =>
    exact .roams (roams.mono evolves rely) fun keeps => (aloof keeps).mono evolves

theorem Owns.activity {t : Ref .future} {s : String} (owns : S.Owns w t s) :
    (∃ c, S.Settles w t s (.obj .coroutine c)) ∨ S.Loads w t s := by
  cases owns with
  | @fetching c _ settles => exact .inl ⟨c, settles⟩
  | registered _ _ loads => exact .inr loads

theorem Expects.gathering {t g : Ref .future} {s : String} (expects : S.Expects w t g)
    (owns : S.Owns w t s) (some : S.next w s ≠ []) :
    Gathering w g fun f => ∃ d work, S.Settles w f d work ∧ .text d ∈ S.next w s := by
  have kind := owns.activity
  cases expects with
  | work settles =>
    obtain ⟨_, _, activity⟩ := settles
    rcases kind with ⟨_, _, _, same⟩ | ⟨_, same, _⟩ <;> simp [activity] at same
  | fetches owns' fetches =>
    obtain rfl := owns.unique owns'
    exact fetches
  | draft builds _ =>
    rcases builds with activity | ⟨_, activity⟩ <;>
      rcases kind with ⟨_, _, _, same⟩ | ⟨_, same, _⟩ <;> simp [activity] at same
  | roams roams _ =>
    cases roams with
    | opened activity is =>
      rcases kind with ⟨_, _, _, same⟩ | ⟨_, same, _⟩ <;> rw [activity] at same <;> cases same <;>
        exact is.elim
    | again activity =>
      rcases kind with ⟨_, _, _, same⟩ | ⟨_, same, _⟩ <;> simp [activity] at same
    | fetching loading settles idle =>
      obtain rfl := owns.unique (.fetching loading settles)
      exact absurd idle some

namespace Rely

theorem refl (t : Ref .future) (w : World) : S.Rely t w w := ⟨fun owns => ⟨owns, rfl⟩, .rfl⟩

theorem trans {t : Ref .future} (first : S.Rely t u w) (next : S.Rely t w v) : S.Rely t u v where
  owns owned := by
    obtain ⟨between, same⟩ := first.owns owned
    obtain ⟨after, same'⟩ := next.owns between
    exact ⟨after, same'.trans same⟩
  loading := next.loading.trans first.loading

end Rely

structure Same (S : Site) (w v : World) : Prop where
  store : v.heap.get S.store = w.heap.get S.store
  loader : v.heap.get S.loader = w.heap.get S.loader
  manager : v.heap.get S.manager = w.heap.get S.manager

namespace Same

variable (same : S.Same w v)
include same

theorem record? (k : Key) : S.record? v k = S.record? w k := by
  unfold Site.record?
  rw [same.store]

theorem loading {s : String} {t : Ref .future} : S.Loading v s t ↔ S.Loading w s t := by
  unfold Loading
  rw [same.record?]

theorem waits : S.waits v = S.waits w := by
  unfold Site.waits
  rw [same.loader]

theorem next (s : String) : S.next v s = S.next w s := by
  unfold Site.next
  rw [same.waits]

theorem cached {s : String} : S.Cached v s ↔ S.Cached w s := by
  unfold Cached
  rw [same.manager]

theorem rely (evolves : w.Evolves v) (t : Ref .future) : S.Rely t w v where
  owns owned := ⟨owned.mono evolves same.loading.mpr, same.next _⟩
  loading := same.loading

end Same

end Site
end AsyncImport
