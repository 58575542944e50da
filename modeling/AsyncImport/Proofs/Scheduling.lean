import AsyncImport.Proofs.Requests

/-!
# The scheduler and the state of a loader

A loader's state stays in order whenever the turn passes, provided the task that leaves the scene has
kept its record and has no edges, or waits for all that they stand for.
-/

namespace AsyncImport

open Relation

namespace World

variable {w v : World}

structure Passes (w v : World) : Prop where
  turns : w.Turns v
  old : ∀ f : Ref .future, v.heap.Live f → w.heap.Live f

namespace Passes

variable (passes : w.Passes v)
include passes

theorem follows (f : Ref .future) : Future.Follows (w.heap.get f) (v.heap.get f) := by
  by_cases live : w.heap.Live f
  · exact passes.turns.evolves.follows f live
  · rw [Heap.get_not_live live, Heap.get_not_live fun lives => live (passes.old f lives)]
    exact .refl _

theorem waiting {f : Ref .future} (waiting : (v.heap.get f).status = .waiting) :
    (w.heap.get f).status = .waiting := by
  by_contra done
  exact done ((passes.follows f).status done ▸ waiting)

theorem task {t : Ref .future} {a : Activity} (task : v.task? t = some a) : w.task? t = some a := by
  obtain ⟨waiting, activity⟩ := task?_eq_some.mp task
  exact task?_eq_some.mpr ⟨passes.waiting waiting, (passes.follows t).activity.symm.trans activity⟩

theorem undone {t : Ref .future} (task : v.task? t ≠ none) : w.task? t ≠ none := by
  obtain ⟨a, task⟩ := Option.ne_none_iff_exists'.mp task
  simp [passes.task task]

end Passes

theorem passes_ofHeapEq (heap : v.heap = w.heap) (functions : v.functions = w.functions)
    (emitted : v.emitted = w.emitted) : w.Passes v :=
  ⟨.ofHeapEq heap functions emitted, fun _ live => heap ▸ live⟩

theorem passes_resumed (w : World) (t : Ref .future) (jobs : List Job) :
    w.Passes (w.resumed t jobs) :=
  ⟨turns_resumed w t jobs, fun _ live => live_set.mp live⟩

theorem passes_awaiting {t f : Ref .future} (waiting : (w.heap.get f).status = .waiting)
    (runs : w.Runs t) (ne : t ≠ f) : w.Passes (w.awaiting t f) := by
  refine ⟨turns_awaiting waiting runs ne, fun g live => ?_⟩
  obtain ⟨-, a, origin⟩ := runs
  rw [awaiting_eq waiting origin ne] at live
  exact live_set.mp (live_set.mp live)

theorem passes_ended (w : World) (t : Ref .future) (o : Outcome) : w.Passes (w.ended t o) := by
  refine ⟨turns_ended w t o, fun g live => ?_⟩
  rw [ended_eq, live_completed] at live
  exact live

theorem Touches.passes {f : Ref .future} (touches : Touches f w v) : w.Passes v :=
  ⟨touches.turns, touches.old⟩

end World

namespace Site

variable {S : Site} {u w v : World}

theorem Same.ofTurns (stands : S.Stands w) (turns : w.Turns v) : S.Same w v where
  store := turns.rests S.store (by decide) stands.store
  loader := turns.rests S.loader (by decide) stands.loader
  manager := turns.rests S.manager (by decide) stands.manager

section

variable (passes : w.Passes v)
include passes

theorem activity?_passes (t : Ref .future) : (v.heap.get t).activity? = (w.heap.get t).activity? :=
  (passes.follows t).activity

theorem settles_passes {t : Ref .future} {s : String} {x : Value} (settles : S.Settles v t s x) :
    S.Settles w t s x := by
  obtain ⟨markLoaded, report, activity⟩ := settles
  exact ⟨markLoaded, report, (activity?_passes passes t).symm.trans activity⟩

/-- The turn may pass when no record in flight is left behind, what waits goes with what there is to
do, and the edges that count are in order. -/
theorem Tidy.passed (tidy : S.Tidy w)
    (calm : ∀ {t : Ref .future} {a f c}, (v.heap.get t).status = .waiting →
      (v.heap.get t).origin = .task a f c → c = false)
    (undone : ∀ {s t}, S.Loading w s t → v.task? t ≠ none)
    (leaves : ∀ {t s x}, w.current = some t → v.current ≠ some t → v.task? t ≠ none →
      S.Settles w t s x → S.Loading w s t)
    (edges : ∀ {s t}, S.Owns w t s → w.task? t ≠ none → S.next w s ≠ [] → v.task? t ≠ none)
    (acyclic : ∀ k, ¬ TransGen (S.Edge v) k k) (wired : v.Wired)
    (blocked : ∀ {t f}, v.task? t ≠ none → v.current ≠ some t →
      (v.heap.get t).waitsFor? = some f → S.Expects v t f) : S.Tidy v := by
  have evolves := passes.turns.evolves
  have same : S.Same w v := .ofTurns tidy.stands passes.turns
  have owns {s t} (owns : S.Owns w t s) : S.Owns v t s := owns.mono evolves same.loading.mpr
  refine
    { stands := tidy.stands.mono evolves
      calm := calm
      errands := fun task => (tidy.errands (passes.task task)).mono evolves
      records := fun {k r} found => ?_
      settling := fun {t name x markLoaded report} task => ?_
      loading := fun {t draft} task => ?_
      edges := fun {k} some => ?_
      acyclic := acyclic
      wired := wired
      blocked := blocked }
  · rw [same.record?] at found
    obtain ⟨s, rfl, sound⟩ := tidy.records found
    refine ⟨s, rfl, ?_⟩
    cases sound with
    | loading _ settles => exact .loading (undone ⟨_, found⟩) (settles.mono evolves)
    | @pending _ d live name =>
      have kept : (v.heap.get d).name = (w.heap.get d).name := evolves.follows d live
      exact .pending (evolves.live live) (kept.trans name)
    | loaded => exact .loaded
  · have before := passes.task task
    obtain ⟨s, rfl, work, loading⟩ := tidy.settling before
    refine ⟨s, rfl, work.mono evolves, ?_⟩
    by_cases stays : v.current = some t
    · exact .inr stays
    · refine .inl (same.loading.mpr (loading.elim id fun own => ?_))
      exact leaves own stays (by simp [task]) ⟨_, _, activity_of_task before⟩
  · obtain ⟨s, owned⟩ := tidy.loading (passes.task task)
    exact ⟨s, owns owned⟩
  · rw [same.waits] at some
    obtain ⟨s, t, rfl, owned, task⟩ := tidy.edges some
    exact ⟨s, t, rfl, owns owned, edges owned task some⟩

theorem Edge.passed (tidy : S.Tidy w)
    (waits : ∀ {t g : Ref .future}, w.task? t ≠ none → w.current ≠ some t →
      (v.heap.get t).waitsFor? = some g → (w.heap.get t).waitsFor? = some g)
    {a b : Key} (edge : S.Edge v a b)
    (aside : ∀ t s, w.current = some t → a = .text s → ¬ S.Owns w t s) : S.Edge w a b := by
  have same : S.Same w v := .ofTurns tidy.stands passes.turns
  obtain ⟨edge, -, counts⟩ := edge
  rw [same.waits] at edge
  refine ⟨edge, aside, fun d is cached => ?_⟩
  obtain ⟨s, rfl, t, g, members, f, x, owns, for_, among, mem, waiting, settles⟩ :=
    counts d is (same.cached.mpr cached)
  obtain ⟨r, u, name, owned, task⟩ := tidy.edges (List.ne_nil_of_mem edge)
  obtain rfl : s = r := by simpa using name
  obtain rfl := (owned.mono passes.turns.evolves same.loading.mpr).owner owns
  exact ⟨s, rfl, u, g, members, f, x, owned, waits task (fun own => aside u s own rfl owned) for_,
    (passes.follows g).members.symm.trans among, mem, passes.waiting waiting,
    settles_passes passes settles⟩

end

/-! ## Leaving and entering -/

theorem Roams.loading {t : Ref .future} {s : String} {x : Value} (roams : S.Roams w t)
    (settles : S.Settles w t s x) : S.Loading w s t := by
  obtain ⟨_, _, same⟩ := settles
  cases roams with
  | opened activity is =>
    rw [activity] at same
    cases same
    exact is.elim
  | again activity => simp [activity] at same
  | fetching loading settles _ =>
    obtain ⟨_, _, activity⟩ := settles
    simp [activity] at same
    exact same.1 ▸ loading

theorem Roams.idle {t : Ref .future} {s : String} (roams : S.Roams w t) (owns : S.Owns w t s) :
    S.next w s = [] := by
  by_contra some
  have kind := owns.activity
  cases roams with
  | opened activity is =>
    rcases kind with ⟨_, _, _, same⟩ | ⟨_, same, _⟩ <;> rw [activity] at same <;> cases same <;>
      exact is.elim
  | again activity =>
    rcases kind with ⟨_, _, _, same⟩ | ⟨_, same, _⟩ <;> simp [activity] at same
  | fetching loading settles idle =>
    obtain rfl := owns.unique (.fetching loading settles)
    exact some idle

section

variable {t : Ref .future} (tidy : S.Tidy w) (own : w.current = some t)
include tidy own

theorem Tidy.left (passes : w.Passes v)
    (spares : ∀ s, s ≠ t → World.Spares s w v) (stays : v.task? t ≠ none)
    (origin : ∃ a f, (v.heap.get t).origin = .task a f false)
    (loading : ∀ {s x}, S.Settles w t s x → S.Loading w s t)
    (apart : ∀ {s b}, S.Owns w t s → S.Edge v (.text s) b →
      ¬ ReflTransGen (S.Edge v) b (.text s))
    (wired : v.Wired) (blocked : ∀ f, (v.heap.get t).waitsFor? = some f → S.Expects v t f) :
    S.Tidy v := by
  have other {s : Ref .future} (ne : w.current ≠ some s) : s ≠ t := fun same => ne (same ▸ own)
  have undone {s : Ref .future} (task : w.task? s ≠ none) : v.task? s ≠ none := by
    by_cases same : s = t
    · exact same ▸ stays
    · rwa [(spares s same).task?]
  refine tidy.passed passes (fun {s a f c} waiting is => ?_) (fun loading => ?_)
    (fun {s r x} is _ _ settles => ?_) (fun _ task _ => undone task) (fun k cycle => ?_) wired
    fun {s f} task _ for_ => ?_
  · by_cases same : s = t
    · obtain ⟨b, g, known⟩ := origin
      rw [same, known] at is
      cases is
      rfl
    · exact tidy.calm ((spares s same).status ▸ waiting) ((spares s same).origin ▸ is)
  · exact undone (tidy.loads loading).1
  · obtain rfl := Option.some.inj (own.symm.trans is)
    exact loading settles
  · have before {a b : Key} (edge : S.Edge v a b)
        (aside : ∀ s, a = .text s → ¬ S.Owns w t s) : S.Edge w a b := by
      refine edge.passed passes tidy (fun {u g} task ne for_ => ?_) fun u s is name => ?_
      · rwa [(spares u (other ne)).waitsFor?] at for_
      · obtain rfl := Option.some.inj (own.symm.trans is)
        exact aside s name
    by_cases owner : ∃ s, S.Owns w t s
    · obtain ⟨s, owns⟩ := owner
      -- only the edges of the running task are new; a cycle without them was there before
      rcases Waits.split_cycle (n := .text s) cycle with apart' | ⟨b, edge, path⟩
      · refine tidy.acyclic k (TransGen.mono (fun a b ⟨ne, edge⟩ => ?_) k k apart')
        refine before edge fun r name owned => ne ?_
        rw [name, owned.unique owns]
      · exact apart owns edge path
    · exact tidy.acyclic k (TransGen.mono
        (fun a b edge => before edge fun s _ owns => owner ⟨s, owns⟩) k k cycle)
  · by_cases same : s = t
    · subst same
      exact blocked f for_
    · have ne : w.current ≠ some s := fun is => same (Option.some.inj (is.symm.trans own))
      rw [(spares s same).waitsFor?] at for_
      have same' : S.Same w v := .ofTurns tidy.stands passes.turns
      exact (tidy.blocked (passes.undone task) ne for_).mono passes.turns.evolves
        (same'.rely passes.turns.evolves s)

theorem Tidy.paused (runs : w.Runs t) (roams : S.Roams w t) : S.Tidy (w.paused t) := by
  obtain ⟨waiting, a, origin⟩ := runs
  refine tidy.left own (World.passes_ofHeapEq rfl rfl rfl) (fun s _ => .ofGet rfl)
    (World.Runs.task? ⟨waiting, a, origin⟩) ⟨a, none, origin⟩ roams.loading
    (fun {s b} owns edge => ?_) (World.wired_paused tidy.wired own ⟨waiting, a, origin⟩) fun f for_ => ?_
  · exact absurd (roams.idle owns) (List.ne_nil_of_mem edge.edge)
  · rw [show (w.paused t).heap.get t = w.heap.get t from rfl] at for_
    simp [Future.waitsFor?, origin] at for_

theorem Tidy.awaiting {f : Ref .future} (runs : w.Runs t) (live : w.heap.Live f)
    (waiting : (w.heap.get f).status = .waiting) (ne : t ≠ f)
    (loading : ∀ {s x}, S.Settles w t s x → S.Loading w s t)
    (apart : ∀ {s b}, S.Owns w t s → S.Edge (w.awaiting t f) (.text s) b →
      ¬ ReflTransGen (S.Edge (w.awaiting t f)) b (.text s))
    (expects : S.Expects w t f) : S.Tidy (w.awaiting t f) := by
  have passes := World.passes_awaiting waiting runs ne
  have task : (w.awaiting t f).task? t ≠ none := by
    obtain ⟨a, task⟩ := Option.ne_none_iff_exists'.mp runs.task?
    simp [passes.turns.evolves.task?_some task (World.status_awaiting waiting runs ne)]
  have same : S.Same w (w.awaiting t f) := .ofTurns tidy.stands passes.turns
  have evolves := passes.turns.evolves
  have wired := World.wired_awaiting tidy.wired own runs live waiting ne
  have spares {s : Ref .future} (other : s ≠ t) := World.spares_awaiting waiting runs ne other
  have lives := World.task?_live runs.task?
  obtain ⟨undone, a, origin⟩ := runs
  have get := World.get_awaiting waiting lives origin ne
  refine tidy.left own passes (fun s other => spares other) task ⟨a, some f, by rw [get]⟩
    loading apart wired fun g for_ => ?_
  obtain rfl : f = g := by simpa [get, Future.waitsFor?] using for_
  exact expects.mono evolves (same.rely evolves t)

theorem Tidy.roaming {f : Ref .future} (runs : w.Runs t) (live : w.heap.Live f)
    (waiting : (w.heap.get f).status = .waiting) (ne : t ≠ f) (roams : S.Roams w t)
    (aloof : S.aloof → S.Building w f) : S.Tidy (w.awaiting t f) := by
  refine tidy.awaiting own runs live waiting ne roams.loading (fun {s b} owns edge => ?_)
    (.roams roams aloof)
  have same : S.Same w (w.awaiting t f) :=
    .ofTurns tidy.stands (World.turns_awaiting waiting runs ne)
  have some := edge.edge
  rw [same.waits] at some
  exact absurd (roams.idle owns) (List.ne_nil_of_mem some)

theorem Tidy.ended (o : Outcome) (task : w.task? t ≠ none)
    (settled : ∀ {s}, ¬ S.Loading w s t) (idle : ∀ {s}, S.Owns w t s → S.next w s = []) :
    S.Tidy (w.ended t o) := by
  have passes := World.passes_ended w t o
  have get {s : Ref .future} (ne : s ≠ t) : (w.ended t o).heap.get s = w.heap.get s :=
    World.get_ended_ne w o ne
  have none : (w.ended t o).task? t = none := World.task?_ended o task
  have finished : ((w.ended t o).heap.get t).status ≠ .waiting := by
    rw [World.status_ended o task]
    exact World.endStatus_ne_waiting w t o
  have undone {s : Ref .future} (ne : s ≠ t) (task : w.task? s ≠ Option.none) :
      (w.ended t o).task? s ≠ Option.none := by
    rwa [(World.Spares.ofGet (get ne)).task?]
  have same : S.Same w (w.ended t o) := .ofTurns tidy.stands passes.turns
  have evolves := passes.turns.evolves
  refine tidy.passed passes (fun {s a f c} waiting is => ?_) (fun {s u} loading => ?_)
    (fun {s r x} is _ left _ => ?_) (fun {s u} owns task some => ?_) (fun k cycle => ?_)
    (World.wired_ended tidy.wired own (World.task?_live task) o) fun {s f} task' _ for_ => ?_
  · by_cases same : s = t
    · exact absurd (same ▸ waiting) finished
    · rw [get same] at waiting is
      exact tidy.calm waiting is
  · by_cases same : u = t
    · exact absurd (same ▸ loading) settled
    · exact undone same (tidy.loads loading).1
  · obtain rfl := Option.some.inj (own.symm.trans is)
    exact absurd none left
  · by_cases same : u = t
    · exact absurd (idle (same ▸ owns)) some
    · exact undone same task
  · refine tidy.acyclic k (TransGen.mono (fun a b edge => ?_) k k cycle)
    refine edge.passed passes tidy (fun {u g} _ ne for_ => ?_) fun u s is name owns => ?_
    · rwa [get (by rintro rfl; exact ne own)] at for_
    · obtain rfl := Option.some.inj (own.symm.trans is)
      subst name
      have some := edge.edge
      rw [same.waits] at some
      exact absurd (idle owns) (List.ne_nil_of_mem some)
  · by_cases is : s = t
    · exact absurd none (is ▸ task')
    · rw [get is] at for_
      refine (tidy.blocked (passes.undone task') (fun self => ?_) for_).mono evolves
        (same.rely evolves s)
      exact is (Option.some.inj (self.symm.trans own))

end

section

variable (tidy : S.Tidy w) (idle : w.current = none)
include tidy idle

/-- The turn passes while no task runs, and at most one goes on. -/
theorem Tidy.scheduled (passes : w.Passes v)
    (spares : ∀ t, w.task? t ≠ none → v.current ≠ some t → World.Spares t w v)
    (goes : ∀ t, v.current = some t → w.task? t ≠ none → v.Runs t) (wired : v.Wired) :
    S.Tidy v := by
  have task {t : Ref .future} (task : w.task? t ≠ none) : v.task? t ≠ none := by
    by_cases runs : v.current = some t
    · exact (goes t runs task).task?
    · rwa [(spares t task runs).task?]
  refine tidy.passed passes (fun {t a f c} waiting is => ?_)
    (fun loading => task (tidy.loads loading).1) (fun own => by simp [idle] at own)
    (fun _ before _ => task before) (fun k cycle => ?_) wired fun {t f} task' other for_ => ?_
  · have before := passes.undone (t := t)
      (by simp [World.task?, waiting, Future.activity?, is])
    by_cases runs : v.current = some t
    · obtain ⟨-, b, origin⟩ := goes t runs before
      cases is.symm.trans origin
      rfl
    · have same := spares t before runs
      exact tidy.calm (same.status ▸ waiting) (same.origin ▸ is)
  · refine tidy.acyclic k (TransGen.mono (fun a b edge => ?_) k k cycle)
    refine edge.passed passes tidy (fun {t g} task _ for_ => ?_) fun t s own => by simp [idle] at own
    by_cases runs : v.current = some t
    · obtain ⟨-, b, origin⟩ := goes t runs task
      simp [Future.waitsFor?, origin] at for_
    · rwa [(spares t task runs).waitsFor?] at for_
  · have before := passes.undone task'
    rw [(spares t before other).waitsFor?] at for_
    have same : S.Same w v := .ofTurns tidy.stands passes.turns
    exact (tidy.blocked before (by simp [idle]) for_).mono passes.turns.evolves
      (same.rely passes.turns.evolves t)

theorem Tidy.resumed {j : Job} {jobs : List Job} {t : Ref .future} (ready : w.ready = j :: jobs)
    (task : w.task? t ≠ none) (due : j = .step t ∨ ∃ f, j = .react (.wake t) f) :
    S.Tidy (w.resumed t jobs) := by
  refine tidy.scheduled idle (World.passes_resumed w t jobs) (fun s _ other => ?_) (fun s own _ => ?_)
    (World.wired_resumed tidy.wired idle ready task due)
  · exact .ofGet (World.get_resumed_ne w jobs fun same => other (same ▸ rfl))
  · obtain rfl := Option.some.inj own
    exact World.runs_resumed jobs task

theorem Tidy.popped {j : Job} {jobs : List Job} (ready : w.ready = j :: jobs)
    (nothing : w.Idle j) : S.Tidy { w with ready := jobs } :=
  tidy.scheduled idle (World.passes_ofHeapEq rfl rfl rfl) (fun _ _ _ => .ofGet rfl)
    (fun t own => by simp [idle] at own) (World.wired_idle tidy.wired idle ready nothing)

theorem Tidy.report {g f : Ref .future} {jobs : List Job}
    (ready : w.ready = .react (.tell g) f :: jobs) :
    S.Tidy (Edit.report g f { w with ready := jobs }).2 := by
  have touches := World.touches_report g f { w with ready := jobs }
  have popped : w.Passes { w with ready := jobs } := World.passes_ofHeapEq rfl rfl rfl
  refine tidy.scheduled idle
    ⟨popped.turns.trans touches.turns, fun f live => popped.old f (touches.old f live)⟩
    (fun t task _ => ?_) (fun t own => ?_) (World.wired_report tidy.wired idle ready)
  · have spares : World.Spares t { w with ready := jobs } _ :=
      World.spares_report (g := g) (f := f) (by exact task)
    exact ⟨spares.status, spares.origin⟩
  · rw [touches.current] at own
    simp [idle] at own

end

end Site
end AsyncImport
