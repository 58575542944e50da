import AsyncImport.Proofs.Compliance
import AsyncImport.Proofs.Rehearsal
import AsyncImport.Session.Run

/-!
# The wait-for graph along a run

Whoever uses a manager and its loader as expected never sees names that wait for each other in a
circle, and only names in flight wait at all. An edge to a name that is cached in the meantime stays in
the graph until all dependencies have been loaded; it counts only while the fetch that it was
drawn for is awaited.
-/

namespace AsyncImport

open Relation

namespace Machine

def after (m : Machine) (e : Edit Value) : Machine :=
  { m with
    world := { (e.after m.world).2 with current := none }
    focus := none
    answer := some (e.after m.world).1 }

theorem world_map {α β : Type} (f : α → β) (e : Edit α) (w : World) :
    ((f <$> e).after w).2 = (e.after w).2 := by
  unfold Edit.after
  rw [Edit.run_map]
  rcases e w with ⟨_ | _, _⟩ <;> rfl

theorem Run.after {body : Meaning} {conduct : Conduct} {start m : Machine} {e : Edit Value}
    (run : Run body conduct start m) (idle : m.focus = none)
    (writes : conduct.writes none m.world (e.after m.world).2)
    (ends : ∀ o, conduct.ends none (e.after m.world).2 o) : Run body conduct start (m.after e) := by
  have reading := Run.visit run idle (Routine.edit e)
  have writing := reading.step (n := { m with
    focus := some ⟨none, none, .write (e.after m.world).2 (.ofResult (e.after m.world).1), []⟩
    answer := none }) (by rintro _ ⟨⟩; trivial) rfl
  have written := writing.step (n := { m with
    focus := some ⟨none, none, .ofResult (e.after m.world).1, []⟩
    world := (e.after m.world).2
    answer := none }) (by rintro _ ⟨⟩; exact writes) rfl
  refine written.step ?_ ?_
  · rintro _ ⟨⟩
    cases (e.after m.world).1 <;> exact ends _
  · unfold Machine.after
    cases (e.after m.world).1 <;> rfl

end Machine

namespace Site

variable {S : Site} {host : Host}

structure Fresh (S : Site) (m : Machine) : Prop where
  focus : m.focus = none
  waiting : m.waiting = []
  current : m.world.current = none
  ready : m.world.ready = []
  stands : S.Stands m.world
  done : ∀ f : Ref .future, m.world.heap.Live f → (m.world.heap.get f).status ≠ .waiting
  records : ∀ k, S.record? m.world k = none
  idle : ∀ k, (S.waits m.world).next k = []

namespace Fresh

variable {m : Machine} (fresh : S.Fresh m)
include fresh

theorem origin {f : Ref .future} (waiting : (m.world.heap.get f).status = .waiting) :
    (m.world.heap.get f).origin = .plain := by
  by_cases live : m.world.heap.Live f
  · exact absurd waiting (fresh.done f live)
  · rw [Heap.get_not_live live]
    rfl

theorem task? (t : Ref .future) : m.world.task? t = none := by
  unfold World.task?
  split
  · next waiting => simp [Future.activity?, fresh.origin waiting]
  · rfl

theorem wired : m.world.Wired where
  tasks t task := absurd (fresh.task? t) task
  others f live waiting := absurd waiting (fresh.done f live)
  causes queued := by simp [fresh.ready] at queued

theorem tidy : S.Tidy m.world where
  stands := fresh.stands
  calm waiting origin := by simp [fresh.origin waiting] at origin
  errands task := by simp [fresh.task?] at task
  records found := by simp [fresh.records] at found
  settling task := by simp [fresh.task?] at task
  loading task := by simp [fresh.task?] at task
  edges some := absurd (fresh.idle _) some
  acyclic k cycle := by
    obtain ⟨b, edge, _⟩ := TransGen.head'_iff.mp cycle
    exact absurd (fresh.idle k) (List.ne_nil_of_mem edge.edge)
  wired := fresh.wired
  blocked task := absurd (fresh.task? _) task

theorem good : (S.protocol host).Good m :=
  Protocol.good_fresh fresh.focus fresh.waiting fresh.tidy fresh.current fresh.task?

end Fresh

/-- Whenever nobody is in focus, the state of the loader is in order. -/
theorem tidy_run {start m : Machine} (fresh : S.Fresh start)
    (run : Machine.Run host.meaning S.conduct start m) (idle : m.focus = none) :
    S.Tidy m.world ∧ m.world.current = none :=
  (Protocol.good_run (protocol_lawful host) fresh.good (fun _ _ => trivial) run).idle idle

/-- The host makes one of the requests that are open to it. -/
theorem run_asks {start m : Machine} {e : Edit Value} (fresh : S.Fresh start)
    (run : Machine.Run host.meaning S.conduct start m) (idle : m.focus = none)
    (asks : S.Asks m.world (e.after m.world).2) :
    Machine.Run host.meaning S.conduct start (m.after e) := by
  have moved := asks.moves (tidy_run fresh run idle).1
  refine run.after idle ⟨fun d live => moved.evolves.follows d live, fun _ => .inr ⟨asks, fun _ => rfl⟩,
    by simp⟩ fun _ => trivial

/-- A name waits for another, which is not cached or whose fetch it awaits all the same. -/
def WaitsFor (S : Site) (w : World) (a b : Key) : Prop :=
  b ∈ (S.waits w).next a ∧ ∀ d, b = .text d → S.Cached w d → ∃ s, a = .text s ∧ S.Awaits w s d

/-- Names do not wait for each other in a circle, and the names that wait are in flight. -/
theorem waits_acyclic (S : Site) (host : Host) {start m : Machine} (fresh : S.Fresh start)
    (run : Machine.Run host.meaning S.conduct start m) (idle : m.focus = none) :
    (∀ k, ¬ TransGen (S.WaitsFor m.world) k k) ∧
      ∀ a b, b ∈ (S.waits m.world).next a → ∃ s t, a = .text s ∧ S.Loading m.world s t := by
  obtain ⟨tidy, current⟩ := tidy_run fresh run idle
  refine ⟨fun k cycle => tidy.acyclic k (TransGen.mono (fun a b waits => ?_) k k cycle),
    fun a b edge => ?_⟩
  · exact ⟨waits.1, fun t s own => by simp [current] at own, waits.2⟩
  · obtain ⟨s, t, rfl, owns, _⟩ := tidy.edges (List.ne_nil_of_mem edge)
    obtain ⟨u, loading⟩ := owns.loading
    exact ⟨s, u, rfl, loading⟩

def newManager : Machine := { world := (Manager.create { fetcher := .host "p" } {}).2 }

def only : Site := ⟨⟨0⟩, ⟨0⟩, ⟨0⟩, ⟨0⟩, False⟩

theorem fresh_newManager : only.Fresh newManager where
  focus := rfl
  waiting := rfl
  current := rfl
  ready := rfl
  stands := by constructor <;> decide +kernel
  done f live := absurd live (Nat.not_lt_zero f.id)
  records _ := rfl
  idle _ := rfl

theorem run_quiet {start m : Machine} {x : Quiet Value}
    (run : Machine.Run host.meaning S.conduct start m) (idle : m.focus = none) :
    Machine.Run host.meaning S.conduct start (m.after (liftM x)) := by
  have near := Routine.near_after x m.world
  exact run.after idle ⟨fun d live => near.still.evolves.follows d live, fun _ => .inl near.still,
    by simp⟩ fun _ => trivial

def registering (S : Site) (g : Plan) (s : String) (m : Machine) : Machine :=
  (m.after (Edit.newList ((g s).map .str))).after (Value.obj .draft <$>
    Loader.register S.loader (.str s) (.obj .list (m.world.heap.fresh .list)) (.dataType .str))

theorem run_registering {start m : Machine} (fresh : S.Fresh start) (g : Plan) (s : String)
    (run : Machine.Run host.meaning S.conduct start m) (idle : m.focus = none) :
    Machine.Run host.meaning S.conduct start (S.registering g s m) :=
  run_asks fresh (run_quiet run idle) rfl (by rw [Machine.world_map]; exact .register _ _ _)

def chain : Plan := fun s => if s = "a" then ["b"] else []

def requested : Machine := (only.registering chain "a" (only.registering chain "b" newManager)).after
  (Loader.load only.loader (.str "a") .none)

theorem run_requested : Machine.Run (Host.ofScripts {}).meaning only.conduct newManager requested := by
  have first : Machine.Run (Host.ofScripts {}).meaning only.conduct newManager _ :=
    run_registering fresh_newManager chain "b" .start rfl
  have next := run_registering fresh_newManager chain "a" first rfl
  exact run_asks (e := Loader.load only.loader (.str "a") .none) fresh_newManager next rfl (.load _ _)

def underWay : Machine := requested.run (Host.ofScripts {}).meaning 32

theorem run_underWay : Machine.Run (Host.ofScripts {}).meaning only.conduct newManager underWay := by
  have heeds : Machine.heeds (Host.ofScripts {}).meaning (only.unaided chain) 32 requested = true := by
    decide +kernel
  exact run_requested.onward observed_of_unaided heeds

/-- A name waits for another in flight, and there is no circle. -/
theorem waits_acyclic_in_flight :
    only.WaitsFor underWay.world (.text "a") (.text "b") ∧
      (∃ t, only.Loading underWay.world "a" t) ∧
      ∀ k, ¬ TransGen (only.WaitsFor underWay.world) k k := by
  have idle : underWay.focus = none := Option.isNone_iff_eq_none.mp (by decide +kernel)
  have edge : .text "b" ∈ (only.waits underWay.world).next (.text "a") := by decide +kernel
  have uncached : ((underWay.world.heap.get only.manager).modules.get? "b").isNone := by decide +kernel
  obtain ⟨acyclic, flying⟩ := waits_acyclic only _ fresh_newManager run_underWay idle
  refine ⟨⟨edge, fun d is known => ?_⟩, ?_, acyclic⟩
  · cases is
    exact absurd (Option.isNone_iff_eq_none.mp uncached) known
  · obtain ⟨s, t, is, loading⟩ := flying _ _ edge
    cases is
    exact ⟨t, loading⟩

/-! ## An edge that does not count

A module that requests itself while it is compiled is cached and in flight at once. Another name that
depends on it does not wait for it, but has an edge to it until its other dependencies are loaded.
-/

def nameOfDraft : Expr := .member (.argument 0) ⟨"name", some .name⟩

def drafted (code : Int) (deps : List String) : Statement :=
  .result (.map [.str "code", .str "deps"] [.int code, .list (deps.map .str)])

/-- The first fetch of `s` finds a text, and its compilation requests `s` again. From then on `s`
depends on `k`, and `k` on `s` and on `z`, which takes its time. -/
def rebuilt : Script where
  functions := .ofList [
    ("fetch", { signature := { asynchronous := true, parameters := some ["draft"] }, body := [
      .branch (.equal nameOfDraft (.str "z")) [.sleep 1000, drafted 3 []] [],
      .branch (.equal nameOfDraft (.str "k")) [drafted 2 ["s", "z"]] [],
      .branch (.variable "again" []) [drafted 1 ["k"]]
        [.act (.value (.bool true)) false (some "again"),
          .result (.map [.str "source"] [.str "text"])]] }),
    ("compile", { signature := { parameters := some ["manager", "draft"] }, body := [
      .act (.callMember (.member (.argument 0) ⟨"loader", some .loader⟩) ⟨"load", some .load⟩
        { items := [.str "s"] }) false none,
      drafted 0 []] })]
  steps := [
    .act (.value (.bool false)) false (some "again"),
    .act (.make (.object .manager) { named := [(⟨"fetch", some .fetch⟩, .function "fetch"),
      (⟨"compile", some .compile⟩, .function "compile")] }) false (some "m"),
    .act (.callMember (.variable "m" [⟨"loader", some .loader⟩]) ⟨"load", some .load⟩
      { items := [.str "s"] }) false none,
    .tick 8]

def played (s : Script) (fuel : Nat) : Machine :=
  s.steps.foldl (fun m step => (Session.step s.functions fuel m step).1) { world := Session.world s }

/-- The graph of all edges can have a circle between two steps of the scheduler. -/
theorem waits_circle_of_rebuilt :
    (played rebuilt 200).focus = none ∧
      TransGen (fun a b => b ∈ (only.waits (played rebuilt 200).world).next a)
        (.text "s") (.text "s") := by
  have edges : (played rebuilt 200).focus.isNone ∧
      .text "k" ∈ (only.waits (played rebuilt 200).world).next (.text "s") ∧
      .text "s" ∈ (only.waits (played rebuilt 200).world).next (.text "k") := by decide +kernel
  exact ⟨Option.isNone_iff_eq_none.mp edges.1, .tail (.single edges.2.1) edges.2.2⟩

end Site
end AsyncImport
