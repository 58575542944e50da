import AsyncImport.Proofs.LinkOrder

/-!
# Loaded modules

A request of a name comes to the module that is cached under it, provided that drafts and modules keep
the names that they are asked for under.
-/

namespace AsyncImport.Desk

open Site Edit Protocol

variable {S : Desk} {w v : World} {host : Host} {start m n : Machine}

/-- What a request of a name gives: a future of the module that is cached, or a task that builds it. -/
inductive Given (S : Desk) (w v : World) (s : String) (f : Ref .future) : Prop
  | cached {r : Ref .module} (entry : S.entry? w s = some r) (first : f = w.heap.fresh .future)
      (after : v = w.alloc .future { status := .done (.obj .module r) })
  | built (new : S.entry? w s = none) (task : v.task? f ≠ none) (builds : S.Builds v f s)

theorem given_spawned {u : World} {s : String} {a : Activity} (new : S.entry? w s = none)
    (is : a = .buildReported S.loader (.str s) ∨ ∃ g, a = .buildFetched S.loader (.str s) g) :
    S.Given w (spawned u a) s (u.heap.fresh .future) := by
  have task : (spawned u a).task? (u.heap.fresh .future) = some a := by
    rw [task?_spawned, if_pos rfl]
  have activity := activity_of_task task
  refine .built new (by simp [task]) ?_
  rcases is with rfl | ⟨g, rfl⟩
  · exact .inl activity
  · exact .inr ⟨g, activity⟩

/-- What is cached is given at once, and nothing is fetched. -/
theorem given_of_load (stands : S.Stands w) {name parent x : Value}
    (run : Loader.load S.loader name parent w = (.ok x, v)) :
    ∃ s f, name = .str s ∧ x = .obj .future f ∧ S.Given w v s f := by
  unfold Loader.load at run
  by_cases proper : name.isName
  case neg =>
    simp only [run_bind, run_lift, run_checkName, proper] at run
    cases run
  obtain ⟨s, rfl, -⟩ := isName_iff.mp proper
  simp only [run_bind, run_lift, run_checkName, proper, if_true, run_managerOf stands, run_find] at run
  cases entry : (w.heap.get S.manager).modules.get? s with
  | some r =>
    simp only [entry] at run
    cases run
    exact ⟨s, _, rfl, rfl, .cached entry rfl rfl⟩
  | none =>
    simp only [entry] at run
    obtain ⟨found, u, -, run⟩ := bind_ok run
    cases found with
    | true =>
      cases run
      exact ⟨s, _, rfl, rfl, given_spawned entry (.inl rfl)⟩
    | false =>
      obtain ⟨fetching, u, -, run⟩ := bind_ok run
      cases run
      exact ⟨s, _, rfl, rfl, given_spawned entry (.inr ⟨fetching, rfl⟩)⟩

/-- A task that builds the module of a name ends with the one that is cached under it. -/
theorem provided_step (unlinked : S.Unlinked start) (run : Machine.Run host.meaning S.linkage start m)
    (observed : S.linkage.Observed m) (next : m.step host.meaning = some n) {t : Ref .future}
    {s : String} {x : Value} (builds : S.Builds m.world t s)
    (waiting : (m.world.heap.get t).status = .waiting)
    (done : (n.world.heap.get t).status = .done x) : S.Provided n.world (.str s) x := by
  have good := unlinked.good_run_linking run
  have task : m.world.task? t ≠ none := by
    rcases builds with activity | ⟨g, activity⟩ <;> simp [World.task?, waiting, activity]
  rcases good.ends (linking_lawful S host) observed next task with
    same | cancelled | ⟨o, ⟨-, leaves⟩, world⟩
  · rw [same, waiting] at done
    cases done
  · rw [cancelled] at done
    cases done
  · have leaves : ∀ a y, (m.world.heap.get t).activity? = some a → o = .ok y →
        S.Brings m.world a y := leaves
    rw [world, World.status_ended o task] at done
    have is : o = .ok x := by
      unfold World.endStatus at done
      split at done
      · cases done
      · cases done
        rfl
      · split at done <;> cases done
    have provided : S.Provided m.world (.str s) x := by
      rcases builds with activity | ⟨g, activity⟩
      · exact leaves _ x activity is
      · exact leaves _ x activity is
    have stands := unlinked.stands_run_linking run
    have unlinking : S.Unlinking m.world n.world := world ▸ .ofTurns stands (World.turns_ended ..)
    obtain ⟨r, p, name, rfl, cached, entry⟩ := provided
    exact ⟨r, p, name, rfl, unlinking.cached_iff.mpr cached,
      fun holds => (unlinking.entries r).trans (entry holds)⟩

/-- What comes of a request of a name is the module that is cached under it. As long as there is one,
a request gives it at once. -/
theorem loads_cached (S : Desk) (host : Host) {start m : Machine} (holds : S.holds)
    (unlinked : S.Unlinked start) (run : Machine.Run host.meaning S.linkage start m) :
    (∀ n t s x, S.linkage.Observed m → m.step host.meaning = some n → S.Builds m.world t s →
      (m.world.heap.get t).status = .waiting → (n.world.heap.get t).status = .done x →
        ∃ r, x = .obj .module r ∧ S.entry? n.world s = some r) ∧
      ∀ name parent x v, Loader.load S.loader name parent m.world = (.ok x, v) →
        ∃ s f, name = .str s ∧ x = .obj .future f ∧ S.Given m.world v s f := by
  refine ⟨fun n t s x observed next builds waiting done => ?_, fun name parent x v given => ?_⟩
  · obtain ⟨p, r, name, is, -, entry⟩ := provided_step unlinked run observed next builds waiting done
    cases name
    exact ⟨r, is, entry holds⟩
  · exact given_of_load (unlinked.stands_run_linking run) given

def shared : Desk := sole False True

/-- A request comes to the module that is cached, and the next one is given it at once. -/
theorem loads_cached_requested :
    let m := requested.run (Host.ofScripts {}).meaning 168
    (∃ n, m.step (Host.ofScripts {}).meaning = some n ∧ shared.Builds m.world ⟨0⟩ "a" ∧
      (n.world.heap.get (⟨0⟩ : Ref .future)).status = .done (.obj .module ⟨0⟩) ∧
      shared.entry? n.world "a" = some ⟨0⟩) ∧
    ∃ f v, shared.Given (requested.run (Host.ofScripts {}).meaning 176).world v "a" f ∧
      (v.heap.get f).status = .done (.obj .module ⟨0⟩) := by
  have ends : ((requested.run (Host.ofScripts {}).meaning 168).step (Host.ofScripts {}).meaning).map
      (fun n => (n.world.heap.get (⟨0⟩ : Ref .future)).status) = some (.done (.obj .module ⟨0⟩)) := by
    decide +kernel
  have builds : ((requested.run (Host.ofScripts {}).meaning 168).world.heap.get
      (⟨0⟩ : Ref .future)).activity? = some (.buildReported only.loader (.str "a")) := by decide +kernel
  have waiting : ((requested.run (Host.ofScripts {}).meaning 168).world.heap.get
      (⟨0⟩ : Ref .future)).status = .waiting := by decide +kernel
  have fits : only.unaided chain (requested.run (Host.ofScripts {}).meaning 168) = true := by
    decide +kernel
  have asked : (Loader.load only.loader (.str "a") .none
      (requested.run (Host.ofScripts {}).meaning 176).world).1.toOption = some (.obj .future ⟨5⟩) := by
    decide +kernel
  have given : ((Loader.load only.loader (.str "a") .none
      (requested.run (Host.ofScripts {}).meaning 176).world).2.heap.get (⟨5⟩ : Ref .future)).status =
        .done (.obj .module ⟨0⟩) := by decide +kernel
  obtain ⟨n, next, done⟩ := Option.map_eq_some_iff.mp ends
  have first := (loads_cached shared _ trivial (unlinked_newManager _ _)
    (linkage_onward _ _ (k := 168) (by decide +kernel))).1
  have later := (loads_cached shared _ trivial (unlinked_newManager _ _)
    (linkage_onward _ _ (k := 176) (by decide +kernel))).2
  refine ⟨⟨n, next, .inl builds, done, ?_⟩, ?_⟩
  · obtain ⟨r, is, entry⟩ := first n ⟨0⟩ "a" _ (linkage_of_unaided fits) next (.inl builds) waiting done
    cases is
    exact entry
  · rcases run : Loader.load only.loader (.str "a") .none
      (requested.run (Host.ofScripts {}).meaning 176).world with ⟨e | x, v⟩ <;> rw [run] at asked given
    · cases asked
    · obtain rfl := Option.some.inj asked
      obtain ⟨s, g, name, is, known⟩ := later _ _ _ _ run
      cases name
      cases is
      exact ⟨⟨5⟩, v, known, given⟩

/-! ## Modules that are not cached under the name that was asked for -/

/-- A request of a name has come to a module that is not cached under it. -/
def Mislaid (S : Desk) (w : World) (s : String) : Prop :=
  ∃ t r, S.Builds w t s ∧ (w.heap.get t).status = .done (.obj .module r) ∧ S.entry? w s ≠ some r

/-- The draft of `x` comes back with another name. -/
def renamed : Script := requesting [("fetch", { signature := { parameters := some ["draft"] }, body :=
  [.result (.map [.str "name", .str "code"] [.str "y", .int 1])] })] []

def meddling (steps : List Statement) : Script := requesting
  [("fetch", { signature := { parameters := some ["draft"] }, body := [drafted 1 []] }),
    ("meddle", { signature := { parameters := some ["event"] }, body := [
      .branch (.variable "again" []) [] (.act (.value (.bool true)) false (some "again") :: steps)] })]
  [.act (.value (.bool false)) false (some "again"),
    .act (.callMember (.variable "bus" []) ⟨"subscribe", some .subscribe⟩
      { items := [.str Event.link, .function "meddle"] }) false none]

/-- The host makes a module by the name of `x`, and has it linked. -/
def linkedAgain (link : Action) : Script := meddling
  [.act (.make (.object .module) { items := [.str "x"], named := [(⟨"code", some .code⟩, .int 2)] })
      false (some "other"),
    .act link false none]

/-- The host stores another draft of `x`, and has its loader build it. -/
def builtAgain : Script := meddling
  [.act (.make (.object .draft) { items := [.str "x"], named := [(⟨"code", some .code⟩, .int 2)] })
      false (some "other"),
    .act (.callMember (.variable "m" [⟨"loader", some .loader⟩]) ⟨"set_loaded", some .setLoaded⟩
      { items := [.str "x", .variable "other" []] }) false none,
    .act (.callMember (.variable "m" [⟨"loader", some .loader⟩]) ⟨"build_module", some .buildModule⟩
      { items := [.str "x"] }) false none]

/-- The host stores a draft under another name than its own. -/
def misfiled : Script := requesting []
  [.act (.make (.object .draft) { items := [.str "y"], named := [(⟨"code", some .code⟩, .int 1)] })
      false (some "d"),
    .act (.callMember (.variable "m" [⟨"loader", some .loader⟩]) ⟨"set_loaded", some .setLoaded⟩
      { items := [.str "x", .variable "d" []] }) false none]

/-- The host gives its loader to another manager. -/
def handedOver : Script := fetching
  [.act (.make (.object .manager) { named := [(⟨"fetch", some .fetch⟩, .function "fetch")] })
      false (some "n"),
    .act (.set (.variable "m" [⟨"loader", some .loader⟩]) ⟨"manager", some .manager⟩ (.variable "n" []))
      false none]

theorem mislaid {s : String} {t : Ref .future} {r : Ref .module} (builds : S.Builds w t s)
    (is : (w.heap.get t).status = .done (.obj .module r) ∧ S.entry? w s ≠ some r) :
    S.Mislaid w s := ⟨t, r, builds, is⟩

/-- Code of a host can leave a module elsewhere. -/
theorem mislaid_by_host :
    let other : ArgumentList := { items := [.variable "other" []] }
    shared.Mislaid (played renamed 200).world "x" ∧
    shared.Mislaid (played (linkedAgain (.callMember (.variable "m" []) ⟨"link", some .link⟩
      other)) 300).world "x" ∧
    shared.Mislaid (played (linkedAgain (.callMember (.variable "m" [⟨"loader", some .loader⟩])
      ⟨"link_module", some .linkModule⟩ other)) 300).world "x" ∧
    shared.Mislaid (played (linkedAgain (.callLibrary .linkModule
      { items := [.variable "m" [], .variable "other" []] })) 300).world "x" ∧
    shared.Mislaid (played builtAgain 300).world "x" ∧
    shared.Mislaid (played handedOver 200).world "x" ∧
    shared.Mislaid (played misfiled 200).world "x" := by
  refine ⟨?_, ?_, ?_, ?_, ?_, ?_, mislaid (t := ⟨0⟩) (r := ⟨0⟩) (.inl ?_) ?_⟩
  case refine_7 | refine_8 => decide +kernel
  all_goals
    refine mislaid (t := ⟨1⟩) (r := ⟨0⟩) (.inr ⟨.obj .future ⟨0⟩, ?_⟩) ?_ <;> decide +kernel

end AsyncImport.Desk
