import AsyncImport.Proofs.Closing
import AsyncImport.Proofs.Waiting

/-!
# Records along a run

Whatever a host does with a manager and its loader, every record is stored under a name that has none,
or takes the place of the record in flight of the task that is about to succeed. No task leaves a
record in flight behind, and none loses its own before its last step.
-/

namespace AsyncImport.Site

open Edit Protocol

variable {S : Site} {host : Host} {m n start : Machine}

/-- A manager and its loader that have not been used yet. -/
structure Blank (S : Site) (m : Machine) : Prop extends S.Fresh m where
  stored : S.stored m.world = []

namespace Blank

variable (blank : S.Blank start)
include blank

theorem booked : S.Booked start.world where
  stands := blank.stands
  calm waiting origin := by simp [blank.origin waiting] at origin
  ours task := by simp [blank.task?] at task
  records found := by simp [blank.records] at found
  settling task := by simp [blank.task?] at task
  journal e mem := by simp [blank.stored] at mem

theorem good : (S.operation host).Good start :=
  Protocol.good_fresh blank.focus blank.waiting blank.booked blank.current blank.task?

theorem good_run (run : Machine.Run host.meaning S.usage start m) : (S.operation host).Good m :=
  Protocol.good_run (operation_lawful S host) blank.good (fun _ _ => trivial) run

end Blank

/-- What is stored at once: it takes no place, or that of the record in flight of the running task. A
record in flight stays so unless its own task runs. -/
structure Respects (S : Site) (w v : World) : Prop where
  journal : ∃ es, S.Journals w v es ∧
    ∀ e ∈ es, e.before = none ∨ ∃ t, w.current = some t ∧ S.Replaces v e t
  kept : ∀ {s t}, S.Loading w s t → S.Loading v s t ∨ w.current = some t

/-- Every step respects the records. -/
theorem respects_step (good : (S.operation host).Good m) (stands : S.Stands m.world)
    (observed : S.usage.Observed m) (next : m.step host.meaning = some n) :
    S.Respects m.world n.world := by
  rcases good.turns (operation_lawful S host) next with turns | ⟨x, k, focus, code⟩
  · have same := Same.ofTurns stands turns
    refine ⟨⟨[], journals_nil (by simp only [stored, same.store]) fun found => ?_, by simp⟩,
      fun loading => .inl (same.loading.mpr loading)⟩
    exact (same.record? _).symm.trans found
  · obtain ⟨Q, safe, -⟩ := good.safe x focus
    have expected := observed x focus
    rw [code] at safe expected
    obtain ⟨-, refiles⟩ : S.Running m.world ∧ S.Refiles m.world n.world := (safe expected).1
    exact ⟨refiles.journal, refiles.kept⟩

theorem Blank.stands_run (blank : S.Blank start) (run : Machine.Run host.meaning S.usage start m) :
    S.Stands m.world := by
  refine Protocol.always (K := S.Stands) (operation_lawful S host) blank.good (fun _ _ => trivial)
    Booked.stands (fun {a w v} moved => ?_) (fun {w f} _ stands => ?_) (fun {w t jobs} stands => ?_)
      blank.focus run
  · exact (And.right moved : S.Refiles w v).stands
  · exact stands.mono (World.still_failure w f).evolves
  · exact stands.mono (World.turns_resumed w t jobs).evolves

/-- No record is ever overwritten: what is stored takes no place, or that of a record in flight whose
own task is about to succeed. A task that is not done has its record whenever nobody is in focus, and
a record in flight is that of such a task. -/
theorem records_respected (S : Site) (host : Host) {start m : Machine} (blank : S.Blank start)
    (run : Machine.Run host.meaning S.usage start m) :
    (∀ n, S.usage.Observed m → m.step host.meaning = some n → S.Respects m.world n.world) ∧
      (m.focus = none →
        (∀ e ∈ S.stored m.world, e.before = none ∨
          ∃ t x, S.Replaces m.world e t ∧ (m.world.heap.get t).status = .done x) ∧
        (∀ k label item, S.record? m.world k = some ⟨label, .phase .loading, item⟩ →
          ∃ s t work markLoaded report, k = .text s ∧ item = .obj .future t ∧
            m.world.task? t = some (.settle S.loader (.str s) work markLoaded report)) ∧
        ∀ t s work markLoaded report,
          m.world.task? t = some (.settle S.loader (.str s) work markLoaded report) →
            S.Loading m.world s t) := by
  have good := blank.good_run run
  refine ⟨fun n observed next => respects_step good (blank.stands_run run) observed next, fun idle => ?_⟩
  obtain ⟨booked, current⟩ : S.Booked m.world ∧ m.world.current = none := good.idle idle
  refine ⟨fun e mem => ?_, fun k label item found => ?_, fun t s work markLoaded report task => ?_⟩
  · refine (booked.journal e mem).imp_right fun ⟨t, replaces, succeeds⟩ => ?_
    obtain ⟨x, done⟩ := succeeds.resolve_left (by simp [current])
    exact ⟨t, x, replaces, done⟩
  · obtain ⟨s, rfl, -⟩ := booked.records found
    obtain ⟨t, work, markLoaded, report, is, task⟩ := booked.inFlight found
    exact ⟨s, t, work, markLoaded, report, rfl, is, task⟩
  · exact (booked.settling task).resolve_right (by simp [current])

/-- The host makes a request of a loader between two steps of the scheduler. -/
theorem run_operates {e : Edit Value} (run : Machine.Run host.meaning S.usage start m)
    (idle : m.focus = none) (operates : S.Operates m.world (e.after m.world).2) :
    Machine.Run host.meaning S.usage start (m.after e) :=
  run.after idle (fun _ => operates) fun _ => trivial

theorem blank_newManager : only.Blank newManager := ⟨fresh_newManager, rfl⟩

/-- A name is requested twice, and its only record is in flight with a task that is not done. -/
theorem records_respected_in_flight :
    let m := (newManager.after (Loader.load only.loader (.str "a") .none)).after
      (Loader.fetch only.loader (.str "a") .none)
    (only.stored m.world).length = 1 ∧ ∃ work markLoaded report,
      m.world.task? ⟨0⟩ = some (.settle only.loader (.str "a") work markLoaded report) := by
  have first : Machine.Run (Host.ofScripts {}).meaning only.usage newManager _ :=
    run_operates (e := Loader.load only.loader (.str "a") .none) .start rfl (.load _ _)
  have next := run_operates (e := Loader.fetch only.loader (.str "a") .none) first rfl (.fetch _ _)
  obtain ⟨-, inFlight, -⟩ := (records_respected only _ blank_newManager next).2 rfl
  obtain ⟨s, t, work, markLoaded, report, name, is, task⟩ :=
    inFlight (.text "a") (.str "a") (.obj .future ⟨0⟩) (by decide +kernel)
  cases name
  cases is
  exact ⟨by decide +kernel, work, markLoaded, report, task⟩

end AsyncImport.Site
