import AsyncImport.Proofs.Chronicling
import AsyncImport.Proofs.Records

/-!
# The order of links

Modules are announced after their dependencies, and those that have been announced are those that are
cached.
-/

namespace AsyncImport.Desk

open Site Edit Protocol

variable {S : Desk} {w v : World} {host : Host} {m n start : Machine}

/-- A manager with the linker of the library. If it announces what it links, it has linked nothing
yet. -/
structure Unlinked (S : Desk) (m : Machine) : Prop extends S.Blank m where
  plain : ∀ f : Ref .future, (m.world.heap.get f).origin = .plain
  linker : (m.world.heap.get S.manager).linker = .library .linkModule
  bus : S.announces → ∃ b, (m.world.heap.get S.manager).events = .obj .bus b
  empty : S.announces → ∀ s, ¬ S.Cached m.world s ∧ ¬ m.world.Published s

namespace Unlinked

variable (unlinked : S.Unlinked start)
include unlinked

theorem chronicle : S.Chronicle none start.world where
  stands := unlinked.stands
  linker := unlinked.linker
  bus := unlinked.bus
  filed found := by simp [unlinked.records] at found
  tasks task := by simp [unlinked.task?] at task
  done activity _ := by simp [Future.activity?, unlinked.plain] at activity
  cached announces s := by simp [unlinked.empty announces s]

theorem good_linking (host : Host) : (S.linking host).Good start :=
  Protocol.good_fresh unlinked.focus unlinked.waiting unlinked.chronicle unlinked.current unlinked.task?

theorem good_run_linking (run : Machine.Run host.meaning S.linkage start m) : (S.linking host).Good m :=
  Protocol.good_run (linking_lawful S host) (unlinked.good_linking host) (fun _ _ => trivial) run

theorem stands_run_linking (run : Machine.Run host.meaning S.linkage start m) : S.Stands m.world := by
  refine Protocol.always (K := S.Stands) (linking_lawful S host) (unlinked.good_linking host)
    (fun _ _ => trivial) Chronicle.stands (fun {a w v} moved => ?_) (fun {w f} _ stands => ?_)
    (fun {w t jobs} stands => ?_) unlinked.focus run
  · exact (And.left moved : S.Stands v)
  · exact stands.mono (World.still_failure w f).evolves
  · exact stands.mono (World.turns_resumed w t jobs).evolves

end Unlinked

/-- Every step announces modules in order. -/
theorem heeds_step (good : (S.linking host).Good m) (announces : S.announces)
    (observed : S.linkage.Observed m) (next : m.step host.meaning = some n) :
    S.Heeds m.world n.world := by
  rcases good.turns (linking_lawful S host) next with turns | ⟨x, k, focus, code⟩
  · exact ⟨[], by rw [turns.emitted, List.append_nil], by simp⟩
  · obtain ⟨Q, safe, -⟩ := good.safe x focus
    have expected := observed x focus
    rw [code] at safe expected
    obtain ⟨-, heeds⟩ : S.Stands n.world ∧ (S.announces → S.Heeds m.world n.world) :=
      (safe expected).1
    exact heeds announces

/-- Whenever a module is announced it is cached, and all of its dependencies have been announced and
are cached. The names that have been announced are those that are cached whenever nobody is in
focus. -/
theorem links_in_order (S : Desk) (host : Host) {start m : Machine} (announces : S.announces)
    (unlinked : S.Unlinked start) (run : Machine.Run host.meaning S.linkage start m) :
    (∀ n, S.linkage.Observed m → m.step host.meaning = some n → S.Heeds m.world n.world) ∧
      (m.focus = none → ∀ s, S.Cached m.world s ↔ m.world.Published s) := by
  have good := unlinked.good_run_linking run
  refine ⟨fun n observed next => heeds_step good announces observed next, fun idle s => ?_⟩
  have chronicle : S.Chronicle none m.world := (good.idle idle).1
  simpa using chronicle.cached announces s

/-! ## A run that links two modules -/

theorem Aside.ofTame (stands : S.Stands w) (tame : w.Tame v) (names : w.NamesKept v) :
    S.Aside w v := by
  have proceeds : S.Proceeds w v := .ofTame stands tame names
  have task (t : Ref .future) : v.task? t = w.task? t := by
    unfold World.task?
    rw [tame.futures]
  exact
    { toUnlinking := proceeds.toUnlinking
      stands := proceeds.stands
      current := proceeds.current
      mild := proceeds.mild
      unfinished := fun t a dead activity => by
        rw [tame.futures, Heap.get_not_live dead] at activity
        cases activity
      filed := proceeds.filed
      begun := fun {t a} none is => by simp [task, none] at is }

/-- The host does something of its own between two steps of the scheduler. -/
theorem run_undertakes {e : Edit Value} (unlinked : S.Unlinked start)
    (run : Machine.Run host.meaning S.linkage start m) (idle : m.focus = none)
    (undertakes : S.Undertakes m.world (e.after m.world).2) :
    Machine.Run host.meaning S.linkage start (m.after e) := by
  have chronicle : S.Chronicle none m.world := ((unlinked.good_run_linking run).idle idle).1
  have proceeds := undertakes.proceeds chronicle
  exact run.after idle ⟨proceeds.drafts, fun _ => undertakes⟩ fun _ => ⟨by simp, by simp⟩

theorem run_registering (unlinked : S.Unlinked start) (g : Plan) (s : String)
    (run : Machine.Run host.meaning S.linkage start m) (idle : m.focus = none) :
    Machine.Run host.meaning S.linkage start (S.registering g s m) := by
  have near := Routine.near_after (newList ((g s).map .str)) m.world
  have listed := run_undertakes (e := newList ((g s).map .str)) unlinked run idle
    (.aside (.ofTame (unlinked.stands_run_linking run) near.tame near.still.evolves.follows))
  exact run_undertakes unlinked listed rfl (by rw [Machine.world_map]; exact .register _ _ _)

theorem linkage_of_unaided {g : Plan} (unaided : S.unaided g m = true) : S.linkage.Observed m := by
  intro x focus
  have observed := observed_of_unaided unaided x focus
  unfold Site.unaided at unaided
  rw [focus] at unaided
  obtain ⟨inner, fits⟩ := Bool.and_eq_true_iff.mp unaided
  have hosted := not_hosted inner
  cases code : x.code with
  | done v =>
    rw [code] at fits
    obtain ⟨-, delivers⟩ := Bool.and_eq_true_iff.mp fits
    refine ⟨fun l s p d is => ?_, fun n d r is same => ?_⟩
    · rw [is] at delivers
      cases delivers
    · cases same
      rw [is] at delivers
      obtain ⟨delivers, listed⟩ := Bool.and_eq_true_iff.mp delivers
      obtain ⟨live, name⟩ := Bool.and_eq_true_iff.mp delivers
      refine ⟨⟨of_decide_eq_true live, fun _ => ?_⟩, of_decide_eq_true name⟩
      split at listed
      · next l is => exact ⟨_, l, is, of_decide_eq_true listed, rfl⟩
      · cases listed
  | fail e => exact ⟨by simp, by simp⟩
  | write w k =>
    rw [code] at observed
    exact ⟨observed.1, fun is => absurd is hosted⟩
  | call b k =>
    rw [code] at fits
    exact
      { hosted := fun is => absurd is hosted
        atOnce := fun atOnce => absurd (hosted_of_atOnce atOnce) hosted
        permitted := fun f args is => permitted_of_answers fits is
        awaits := by rintro v rfl; cases fits
        linker := by
          rintro args rfl
          exact linking_of_links (linker_of_answers fits).2.2
        makes := by rintro args rfl; cases fits
        links := by rintro l r rfl; cases fits
        holds := fun _ is => absurd is hosted }
  | read => trivial
  | pause => exact fun atOnce => hosted (hosted_of_atOnce atOnce)
  | await => exact fun atOnce => hosted (hosted_of_atOnce atOnce)

def sole (announces holds : Prop) : Desk := { only with announces := announces, holds := holds }

section

variable (announces holds : Prop)

theorem unlinked_newManager : (sole announces holds).Unlinked newManager where
  toBlank := blank_newManager
  plain f := by
    have dead : ¬ newManager.world.heap.Live f := Nat.not_lt_zero f.id
    rw [Heap.get_not_live dead]
    rfl
  linker := by
    change (newManager.world.heap.get only.manager).linker = _
    decide +kernel
  bus _ := ⟨⟨0⟩, by
    change (newManager.world.heap.get only.manager).events = _
    decide +kernel⟩
  empty _ s := by
    refine ⟨fun known => known rfl, ?_⟩
    rintro ⟨e, mem, -⟩
    cases mem

theorem linkage_requested : Machine.Run (Host.ofScripts {}).meaning (sole announces holds).linkage
    newManager requested := by
  have unlinked := unlinked_newManager announces holds
  have first : Machine.Run (Host.ofScripts {}).meaning (sole announces holds).linkage newManager _ :=
    run_registering unlinked chain "b" .start rfl
  have next := run_registering unlinked chain "a" first rfl
  exact run_undertakes (e := Loader.load only.loader (.str "a") .none) unlinked next rfl (.load _ _)

theorem linkage_onward {k : Nat}
    (heeds : Machine.heeds (Host.ofScripts {}).meaning (only.unaided chain) k requested = true) :
    Machine.Run (Host.ofScripts {}).meaning (sole announces holds).linkage newManager
      (requested.run (Host.ofScripts {}).meaning k) :=
  (linkage_requested announces holds).onward linkage_of_unaided heeds

end

def alone : Desk := sole True False

/-- Both modules are linked, one after the other: the second is announced in order, and in the end
both are cached. -/
theorem links_in_order_requested :
    let m := requested.run (Host.ofScripts {}).meaning 165
    (∃ n, m.step (Host.ofScripts {}).meaning = some n ∧ alone.Heeds m.world n.world ∧
      n.world.emitted.map Emission.event = [.linked (.str "b"), .linked (.str "a")]) ∧
    ∀ s, alone.Cached (requested.run (Host.ofScripts {}).meaning 176).world s ↔
      (requested.run (Host.ofScripts {}).meaning 176).world.Published s := by
  have linked : ((requested.run (Host.ofScripts {}).meaning 165).step (Host.ofScripts {}).meaning).map
      (fun n => n.world.emitted.map Emission.event) =
        some [.linked (.str "b"), .linked (.str "a")] := by decide +kernel
  have last : (requested.run (Host.ofScripts {}).meaning 176).focus.isNone := by decide +kernel
  have fits : only.unaided chain (requested.run (Host.ofScripts {}).meaning 165) = true := by
    decide +kernel
  obtain ⟨n, next, emitted⟩ := Option.map_eq_some_iff.mp linked
  have ordered := links_in_order alone _ trivial (unlinked_newManager _ _)
    (linkage_onward _ _ (k := 165) (by decide +kernel))
  have settled := links_in_order alone _ trivial (unlinked_newManager _ _)
    (linkage_onward _ _ (k := 176) (by decide +kernel))
  exact ⟨⟨n, next, ordered.1 n (linkage_of_unaided fits) next, emitted⟩,
    settled.2 (Option.isNone_iff_eq_none.mp last)⟩

/-! ## Modules that are not announced in order -/

def requesting (functions : List (String × Function)) (steps : List Step) : Script where
  functions := .ofList functions
  steps := [.act (.make (.object .bus) {}) false (some "bus"),
      .act (.make (.object .manager) { named := [(⟨"fetch", some .fetch⟩, .function "fetch"),
        (⟨"events", some .events⟩, .variable "bus" [])] }) false (some "m")] ++ steps ++
    [.act (.callMember (.variable "m" [⟨"loader", some .loader⟩]) ⟨"load", some .load⟩
      { items := [.str "x"] }) false none, .tick 8]

/-- A module that depends on a name has been announced, and the name has not. -/
def Ahead (w : World) (s d : String) : Prop :=
  ∃ r : Ref .module, (w.heap.get r).name = s ∧ (∃ ds, w.DependsOn r ds ∧ .str d ∈ ds) ∧
    w.Published s ∧ ¬ w.Published d

/-- The host stores a draft under another name than its own, and another draft depends on it. -/
def filedElsewhere : Script := requesting []
  [.act (.make (.object .draft) { items := [.str "y"], named := [(⟨"code", some .code⟩, .int 1)] })
      false (some "d"),
    .act (.callMember (.variable "m" [⟨"loader", some .loader⟩]) ⟨"set_loaded", some .setLoaded⟩
      { items := [.str "z", .variable "d" []] }) false none,
    .act (.make (.object .draft) { items := [.str "x"], named :=
      [(⟨"code", some .code⟩, .int 2), (⟨"deps", some .deps⟩, .list [.str "z"])] }) false (some "e"),
    .act (.callMember (.variable "m" [⟨"loader", some .loader⟩]) ⟨"set_loaded", some .setLoaded⟩
      { items := [.str "x", .variable "e" []] }) false none]

def fetching (steps : List Step) : Script :=
  requesting [("fetch", { signature := { parameters := some ["draft"] }, body := [drafted 1 []] })] steps

/-- The host makes a module and has the linker link it. -/
def linkedAside : Script := fetching
  [.act (.make (.object .module) { items := [.str "y"], named := [(⟨"code", some .code⟩, .int 2)] })
      false (some "other"),
    .act (.callLibrary .linkModule { items := [.variable "m" [], .variable "other" []] }) false none]

def announced : Script := fetching
  [.act (.callMember (.variable "bus" []) ⟨"emit", some .emit⟩
    { items := [.str Event.link, .str "y"] }) false none]

def deprived : Script := fetching
  [.act (.set (.variable "m" []) ⟨"events", some .events⟩ (.int 5)) false none]

instance (w : World) (s : String) : Decidable (w.Published s) :=
  inferInstanceAs (Decidable (∃ e ∈ w.emitted, e.id = .str Event.link ∧ e.event = .linked (.str s)))

instance (S : Desk) (w : World) (s : String) : Decidable (S.Cached w s) :=
  inferInstanceAs (Decidable (_ ≠ _))

/-- Code of a host can have modules announced out of order, or not at all. -/
theorem disordered_by_host : Ahead (played filedElsewhere 300).world "x" "z" ∧
    (alone.Cached (played linkedAside 200).world "y" ∧ ¬ (played linkedAside 200).world.Published "y") ∧
    (∃ e ∈ (played announced 200).world.emitted, e.id = .str Event.link ∧
      ∀ s, alone.Cached (played announced 200).world s → e.event ≠ .linked (.str s)) ∧
    alone.Cached (played deprived 200).world "x" ∧ ¬ (played deprived 200).world.Published "x" := by
  have first : (played announced 200).world.emitted.head? = some ⟨⟨0⟩, .str Event.link, .str "y"⟩ := by
    decide +kernel
  refine ⟨⟨⟨0⟩, ?_, ⟨[.str "z"], ⟨⟨7⟩, ?_, ?_, ?_⟩, ?_⟩, ?_, ?_⟩, ⟨?_, ?_⟩,
    ⟨_, List.mem_of_mem_head? first, rfl, by simp⟩, ?_, ?_⟩
  all_goals decide +kernel

end AsyncImport.Desk
