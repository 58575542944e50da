import AsyncImport.Proofs.Upkeep

/-!
# The chronicle of links

Every module that is linked is announced on the bus of its manager. `Desk.Chronicle` compares the
announcements with the cache: the names that have been announced are those that are cached. While a
module is cached and not yet announced, its name is exempt. Tasks may be cancelled at any time, so
nothing is said of records that are in flight but that they are futures.
-/

namespace AsyncImport

open Edit Change

namespace World

def Published (w : World) (s : String) : Prop :=
  ∃ e ∈ w.emitted, e.id = .str Event.link ∧ e.event = .linked (.str s)

def DependsOn (w : World) (r : Ref .module) (ds : List Value) : Prop :=
  ∃ l : Ref .list, (w.heap.get r).deps = .obj .list l ∧ w.heap.Live l ∧ w.heap.get l = ds

structure Preserves (w v : World) : Prop where
  endures : w.Endures v
  drafts : w.NamesKept v
  modules : ∀ r : Ref .module, w.heap.Live r → (v.heap.get r).name = (w.heap.get r).name

structure Retains (w v : World) : Prop where
  deps : ∀ r : Ref .module, w.heap.Live r → (v.heap.get r).deps = (w.heap.get r).deps
  lists : ∀ (r : Ref .module) (l : Ref .list), w.heap.Live r → w.heap.Live l →
    (w.heap.get r).deps = .obj .list l → v.heap.get l = w.heap.get l

def Unfinished (w v : World) : Prop := ∀ (t : Ref .future) (a : Activity), ¬ w.heap.Live t →
  (v.heap.get t).activity? = some a → (v.heap.get t).status = .waiting

section

variable {u v w : World}

namespace Preserves

theorem refl (w : World) : w.Preserves w := ⟨.refl w, fun _ _ => rfl, fun _ _ => rfl⟩

theorem trans (first : u.Preserves w) (next : w.Preserves v) : u.Preserves v where
  endures := first.endures.trans next.endures
  drafts d live := (next.drafts d (first.endures.live live)).trans (first.drafts d live)
  modules r live := (next.modules r (first.endures.live live)).trans (first.modules r live)

theorem ofTurns (turns : w.Turns v) : w.Preserves v where
  endures := turns.evolves.endures
  drafts d live := by rw [turns.rests d (by decide) live]
  modules r live := by rw [turns.rests r (by decide) live]

theorem ofTame (tame : w.Tame v) (names : w.NamesKept v) : w.Preserves v where
  endures := (tame.loose.still names).evolves.endures
  drafts := names
  modules r live := tame.loose.rests r (by decide) live

theorem named (preserves : w.Preserves v) {d : Ref .draft} {s : String}
    (named : (w.heap.get d).name = .str s) : (v.heap.get d).name = .str s :=
  (preserves.drafts d (Site.live_named named)).trans named

end Preserves

namespace Retains

theorem refl (w : World) : w.Retains w := ⟨fun _ _ => rfl, fun _ _ _ _ _ => rfl⟩

theorem trans (first : u.Retains w) (next : w.Retains v) (endures : u.Endures w) : u.Retains v where
  deps r live := (next.deps r (endures.live live)).trans (first.deps r live)
  lists r l live listed is := by
    have kept := first.lists r l live listed is
    have still := (first.deps r live).trans is
    rw [next.lists r l (endures.live live) (endures.live listed) still, kept]

theorem ofTurns (turns : w.Turns v) : w.Retains v where
  deps r live := by rw [turns.rests r (by decide) live]
  lists _ l _ live _ := turns.rests l (by decide) live

theorem ofTame (tame : w.Tame v) : w.Retains v :=
  ⟨tame.modules, fun _ l _ live _ => tame.lists l live⟩

theorem dependsOn (retains : w.Retains v) (endures : w.Endures v) {r : Ref .module} {ds : List Value}
    (live : w.heap.Live r) (depends : w.DependsOn r ds) : v.DependsOn r ds := by
  obtain ⟨l, is, listed, rfl⟩ := depends
  exact ⟨l, (retains.deps r live).trans is, endures.live listed, retains.lists r l live listed is⟩

end Retains

theorem preserves_ofGet (endures : w.Endures v)
    (same : ∀ {k : Kind} (r : Ref k), k = .draft ∨ k = .module ∨ k = .list →
      v.heap.get r = w.heap.get r) : w.Preserves v ∧ w.Retains v where
  left :=
    { endures := endures
      drafts := fun d _ => by rw [same d (.inl rfl)]
      modules := fun r _ => by rw [same r (.inr (.inl rfl))] }
  right :=
    { deps := fun r _ => by rw [same r (.inr (.inl rfl))]
      lists := fun _ l _ _ _ => same l (.inr (.inr rfl)) }

end

end World

/-- A site, and what its host leaves to the loader. -/
structure Desk extends Site where
  /-- The host does not modify the dependencies of modules, and announces none as linked itself. -/
  announces : Prop
  /-- The host links no module itself, and builds none of a name that is cached. -/
  holds : Prop

namespace Desk

open Site

section

variable (S : Desk)

def entry? (w : World) (s : String) : Option (Ref .module) :=
  (w.heap.get S.manager).modules.get? s

structure Unlinking (w v : World) : Prop extends w.Preserves v where
  cache : (v.heap.get S.manager).modules = (w.heap.get S.manager).modules
  linker : (v.heap.get S.manager).linker = (w.heap.get S.manager).linker
  bus : S.announces → ∀ b, (w.heap.get S.manager).events = .obj .bus b →
    ∃ c, (v.heap.get S.manager).events = .obj .bus c
  silent : S.announces → ∃ es, v.emitted = w.emitted ++ es ∧ ∀ e ∈ es, e.id ≠ .str Event.link
  retains : S.announces → w.Retains v

structure Lasting (w v : World) : Prop extends w.Preserves v where
  retains : S.announces → w.Retains v
  cached : ∀ {s}, S.Cached w s → S.Cached v s

def Bears (w : World) (s : String) (x : Value) : Prop :=
  ∀ d, x = .obj .draft d → (w.heap.get d).name = .str s

inductive Belongs (w : World) (s : String) : Record → Prop
  | loading {label : Value} {t : Ref .future} (live : w.heap.Live t) :
      Belongs w s ⟨label, .phase .loading, .obj .future t⟩
  | pending {label : Value} {d : Ref .draft} (named : (w.heap.get d).name = .str s) :
      Belongs w s ⟨label, .phase .pending, .obj .draft d⟩
  | loaded {label item : Value} (bears : Bears w s item) : Belongs w s ⟨label, .phase .loaded, item⟩

def Delivers (w : World) (s : String) (f : Ref .future) : Prop :=
  ∃ d, (w.heap.get f).activity? = some (.loadDependencies S.loader (.obj .draft d)) ∧
    (w.heap.get d).name = .str s

/-- What a task is there for. If it settles a record, it is given a draft of that name. -/
structure Due (w : World) (a : Activity) : Prop where
  ours : S.Ours w a
  delivers : ∀ s f markLoaded report,
    a = .settle S.loader (.str s) (.obj .future f) markLoaded report → S.Delivers w s f

/-- The names that have been announced are those that are cached, but for one that is exempt. -/
structure Chronicle (exempt : Option String) (w : World) : Prop where
  stands : S.Stands w
  linker : (w.heap.get S.manager).linker = .library .linkModule
  bus : S.announces → ∃ b, (w.heap.get S.manager).events = .obj .bus b
  filed : ∀ {k r}, S.record? w k = some r → ∃ s, k = .text s ∧ Belongs w s r
  tasks : ∀ {t a}, w.task? t = some a → S.Due w a
  done : ∀ {f : Ref .future} {d : Ref .draft} {x : Value},
    (w.heap.get f).activity? = some (.loadDependencies S.loader (.obj .draft d)) →
    (w.heap.get f).status = .done x → x = .obj .draft d
  cached : S.announces → ∀ s, S.Cached w s ↔ w.Published s ∨ exempt = some s

structure Continues (w v : World) : Prop extends S.Unlinking w v where
  stands : S.Stands v
  filed : ∀ {k r}, S.record? v k = some r →
    S.record? w k = some r ∨ ∃ s, k = .text s ∧ Belongs v s r
  tasks : ∀ {t a}, v.task? t = some a → w.task? t = some a ∨ S.Due v a
  done : ∀ {f : Ref .future} {d : Ref .draft} {x : Value},
    (v.heap.get f).activity? = some (.loadDependencies S.loader (.obj .draft d)) →
    (v.heap.get f).status = .done x → (w.heap.get f).activity? = (v.heap.get f).activity? ∧
      (w.heap.get f).status = .done x ∨ x = .obj .draft d

structure Proceeds (w v : World) : Prop extends S.Continues w v where
  current : v.current = w.current
  mild : ∀ t, w.task? t ≠ none → World.Mild t w v
  free : ∀ t, w.task? t = none → v.task? t ≠ none → (v.heap.get t).waitsFor? = none

end

variable {S : Desk} {u v w : World}

/-! ## What lasts -/

theorem published_iff (unlinking : S.Unlinking w v) (announces : S.announces) {s : String} :
    v.Published s ↔ w.Published s := by
  obtain ⟨es, emitted, silent⟩ := unlinking.silent announces
  constructor
  · rintro ⟨e, mem, link, is⟩
    rw [emitted] at mem
    rcases List.mem_append.mp mem with old | new
    · exact ⟨e, old, link, is⟩
    · exact absurd link (silent e new)
  · rintro ⟨e, mem, link, is⟩
    refine ⟨e, ?_, link, is⟩
    rw [emitted]
    exact List.mem_append_left es mem

theorem Belongs.mono (preserves : w.Preserves v) {s : String} {r : Record} (belongs : Belongs w s r) :
    Belongs v s r := by
  cases belongs with
  | loading live => exact .loading (preserves.endures.live live)
  | pending named => exact .pending (preserves.named named)
  | loaded bears => exact .loaded fun d is => preserves.named (bears d is)

theorem Delivers.mono (preserves : w.Preserves v) {s : String} {f : Ref .future}
    (delivers : S.Delivers w s f) : S.Delivers v s f := by
  obtain ⟨d, activity, named⟩ := delivers
  exact ⟨d, activity_endures preserves.endures activity, preserves.named named⟩

theorem Due.mono (preserves : w.Preserves v) {a : Activity} (due : S.Due w a) : S.Due v a where
  ours := due.ours.mono preserves.endures
  delivers s f m r is := (due.delivers s f m r is).mono preserves

theorem due_asked {a : Activity} (is : S.Public a) : S.Due w a where
  ours := .asked is
  delivers s f m r same := by
    subst same
    exact is.elim

namespace Lasting

theorem refl (w : World) : S.Lasting w w := ⟨.refl w, fun _ => .refl w, id⟩

theorem trans (first : S.Lasting u w) (next : S.Lasting w v) : S.Lasting u v where
  toPreserves := first.toPreserves.trans next.toPreserves
  retains announces := (first.retains announces).trans (next.retains announces) first.endures
  cached known := next.cached (first.cached known)

theorem ofTurns (turns : w.Turns v) : S.Lasting w v :=
  ⟨.ofTurns turns, fun _ => .ofTurns turns, Cached.mono turns.evolves⟩

end Lasting

namespace Unlinking

theorem ofManager (preserves : w.Preserves v) (retains : w.Retains v)
    (manager : v.heap.get S.manager = w.heap.get S.manager)
    (silent : ∃ es, v.emitted = w.emitted ++ es ∧ ∀ e ∈ es, e.id ≠ .str Event.link) :
    S.Unlinking w v where
  toPreserves := preserves
  cache := by rw [manager]
  linker := by rw [manager]
  bus _ b is := ⟨b, by rw [manager, is]⟩
  silent _ := silent
  retains _ := retains

theorem refl (w : World) : S.Unlinking w w := .ofManager (.refl w) (.refl w) rfl ⟨[], by simp⟩

theorem trans (first : S.Unlinking u w) (next : S.Unlinking w v) : S.Unlinking u v where
  toPreserves := first.toPreserves.trans next.toPreserves
  cache := next.cache.trans first.cache
  linker := next.linker.trans first.linker
  bus announces b is := by
    obtain ⟨c, is⟩ := first.bus announces b is
    exact next.bus announces c is
  silent announces := by
    obtain ⟨es, one, silent⟩ := first.silent announces
    obtain ⟨fs, two, silent'⟩ := next.silent announces
    refine ⟨es ++ fs, by rw [two, one, List.append_assoc], fun e mem => ?_⟩
    exact (List.mem_append.mp mem).elim (silent e) (silent' e)
  retains announces := (first.retains announces).trans (next.retains announces) first.endures

theorem ofTame (stands : S.Stands w) (tame : w.Tame v) (names : w.NamesKept v) : S.Unlinking w v :=
  .ofManager (.ofTame tame names) (.ofTame tame)
    (tame.loose.rests S.manager (by decide) stands.manager) tame.silent

theorem ofTurns (stands : S.Stands w) (turns : w.Turns v) : S.Unlinking w v :=
  .ofManager (.ofTurns turns) (.ofTurns turns) (turns.rests S.manager (by decide) stands.manager)
    ⟨[], by rw [turns.emitted, List.append_nil], by simp⟩

theorem ofGet (endures : w.Endures v) (emitted : v.emitted = w.emitted)
    (same : ∀ {k : Kind} (r : Ref k), k = .draft ∨ k = .module ∨ k = .list ∨ k = .manager →
      v.heap.get r = w.heap.get r) : S.Unlinking w v := by
  obtain ⟨preserves, retains⟩ := World.preserves_ofGet endures fun r kind => same r (by tauto)
  exact .ofManager preserves retains (same S.manager (by tauto))
    ⟨[], by rw [emitted, List.append_nil], by simp⟩

theorem entries (unlinking : S.Unlinking w v) (s : String) : S.entry? v s = S.entry? w s := by
  unfold entry?
  rw [unlinking.cache]

theorem cached_iff (unlinking : S.Unlinking w v) {s : String} : S.Cached v s ↔ S.Cached w s := by
  unfold Cached
  rw [unlinking.cache]

theorem lasting (unlinking : S.Unlinking w v) : S.Lasting w v :=
  ⟨unlinking.toPreserves, unlinking.retains, unlinking.cached_iff.mpr⟩

end Unlinking

/-! ## Steps of the chronicle -/

theorem Chronicle.continued {exempt : Option String} (chronicle : S.Chronicle exempt w)
    (continues : S.Continues w v) : S.Chronicle exempt v where
  stands := continues.stands
  linker := continues.linker.trans chronicle.linker
  bus announces := by
    obtain ⟨b, is⟩ := chronicle.bus announces
    exact continues.bus announces b is
  filed {k r} found := by
    rcases continues.filed found with before | new
    · obtain ⟨s, is, belongs⟩ := chronicle.filed before
      exact ⟨s, is, belongs.mono continues.toPreserves⟩
    · exact new
  tasks task := by
    rcases continues.tasks task with before | new
    · exact (chronicle.tasks before).mono continues.toPreserves
    · exact new
  done {f d x} activity done := by
    rcases continues.done activity done with ⟨same, before⟩ | new
    · exact chronicle.done (same.trans activity) before
    · exact new
  cached announces s := by
    rw [continues.cached_iff, chronicle.cached announces s, published_iff continues.toUnlinking announces]

theorem Continues.trans (first : S.Continues u w) (next : S.Continues w v) : S.Continues u v where
  toUnlinking := first.toUnlinking.trans next.toUnlinking
  stands := next.stands
  filed {k r} found := by
    rcases next.filed found with before | new
    · rcases first.filed before with old | ⟨s, is, belongs⟩
      · exact .inl old
      · exact .inr ⟨s, is, belongs.mono next.toPreserves⟩
    · exact .inr new
  tasks task := by
    rcases next.tasks task with before | new
    · rcases first.tasks before with old | due
      · exact .inl old
      · exact .inr (due.mono next.toPreserves)
    · exact .inr new
  done {f d x} activity done := by
    rcases next.done activity done with ⟨same, before⟩ | new
    · rcases first.done (same.trans activity) before with ⟨same', old⟩ | new
      · exact .inl ⟨same'.trans same, old⟩
      · exact .inr new
    · exact .inr new

namespace Proceeds

theorem trans (first : S.Proceeds u w) (next : S.Proceeds w v) : S.Proceeds u v where
  toContinues := first.toContinues.trans next.toContinues
  current := next.current.trans first.current
  mild t task := (first.mild t task).trans (next.mild t (by rwa [(first.mild t task).task?]))
  free t none task := by
    by_cases known : w.task? t = Option.none
    · exact next.free t known task
    · exact (next.mild t known).waitsFor.trans (first.free t none known)

theorem ofSame (unlinking : S.Unlinking w v) (stands : S.Stands v)
    (store : v.heap.get S.store = w.heap.get S.store)
    (futures : ∀ f : Ref .future, v.heap.get f = w.heap.get f) (current : v.current = w.current) :
    S.Proceeds w v where
  toUnlinking := unlinking
  stands := stands
  filed found := by
    unfold Site.record? at found ⊢
    rw [store] at found
    exact .inl found
  tasks {t a} task := by
    unfold World.task? at task ⊢
    rw [futures t] at task
    exact .inl task
  done {f d x} _ done := by
    rw [futures f] at done ⊢
    exact .inl ⟨rfl, done⟩
  current := current
  mild t _ := .ofGet (futures t)
  free t none task := by
    unfold World.task? at none task
    rw [futures t] at task
    exact absurd none task

theorem refl (stands : S.Stands w) : S.Proceeds w w :=
  .ofSame (.refl w) stands rfl (fun _ => rfl) rfl

theorem ofTame (stands : S.Stands w) (tame : w.Tame v) (names : w.NamesKept v) :
    S.Proceeds w v := by
  have outside := outside_slight stands tame.toSlight
  exact .ofSame (.ofTame stands tame names) outside.stands outside.store tame.futures outside.current

theorem ofTurns (stands : S.Stands w) (turns : w.Turns v) (current : v.current = w.current)
    (mild : ∀ t, w.task? t ≠ none → World.Mild t w v)
    (new : ∀ f : Ref .future, ¬ w.heap.Live f → (v.heap.get f).activity? = none) :
    S.Proceeds w v where
  toUnlinking := .ofTurns stands turns
  stands := stands.mono turns.evolves
  filed found := by
    rw [(Same.ofTurns stands turns).record?] at found
    exact .inl found
  tasks {t a} task := by
    by_cases known : w.task? t = none
    · rw [turns.tasks t known] at task
      cases task
    · exact .inl ((mild t known).task?.symm.trans task)
  done {f d x} activity done := by
    by_cases live : w.heap.Live f
    · have follows : Future.Follows _ _ := turns.evolves.follows f live
      refine .inl ⟨follows.activity.symm, ?_⟩
      by_cases waiting : (w.heap.get f).status = .waiting
      · have task : w.task? f ≠ none := by
          rw [World.task?_eq_some.mpr ⟨waiting, follows.activity.symm.trans activity⟩]
          simp
        rw [← (mild f task).status, done]
      · rw [← follows.status waiting, done]
    · rw [new f live] at activity
      cases activity
  current := current
  mild := mild
  free t none task := absurd (turns.tasks t none) task

end Proceeds

/-! ## The single steps -/

theorem unlinking_spawned (w : World) (a : Activity) : S.Unlinking w (spawned w a) :=
  .ofGet (evolves_spawned w a).endures rfl fun _ kind =>
    World.get_alloc_kind _ (by rintro rfl; simp at kind)

theorem unlinking_restored (w : World) (c : Store) : S.Unlinking w (S.restored w c) :=
  .ofGet (evolves_restored c w).endures rfl fun r kind =>
    get_restored c r (by rintro rfl; simp at kind)

theorem unlinking_failure (w : World) (f : Fault) : S.Unlinking w (w.alloc .failure f) :=
  .ofGet (World.still_failure w f).evolves.endures rfl fun _ kind =>
    World.get_alloc_kind _ (by rintro rfl; simp at kind)

theorem proceeds_failure (stands : S.Stands w) (f : Fault) :
    S.Proceeds w (w.alloc .failure f) :=
  .ofSame (unlinking_failure w f) (stands.mono (World.still_failure w f).evolves)
    (World.get_alloc_kind _ (by decide)) (fun _ => World.get_alloc_kind _ (by decide)) rfl

theorem proceeds_resolved (stands : S.Stands w) (x : Value) :
    S.Proceeds w (w.alloc .future { status := .done x }) := by
  have same {f : Ref .future} : (w.alloc .future { status := .done x }).heap.get f = w.heap.get f ∨
      (w.alloc .future { status := .done x }).heap.get f = { status := .done x } := by
    rw [World.get_alloc]
    split
    · exact .inr rfl
    · exact .inl rfl
  have kept {t : Ref .future} (task : (w.alloc .future { status := .done x }).task? t ≠ none) :
      (w.alloc .future { status := .done x }).heap.get t = w.heap.get t := by
    refine same.resolve_right fun done => task ?_
    unfold World.task?
    rw [done]
    rfl
  exact
    { toUnlinking := .ofGet (still_resolved w x).evolves.endures rfl fun _ kind =>
        World.get_alloc_kind _ (by rintro rfl; simp at kind)
      stands := stands.mono (still_resolved w x).evolves
      filed := fun found => by
        have store : (w.alloc .future { status := .done x }).heap.get S.store = w.heap.get S.store :=
          World.get_alloc_kind _ (by decide)
        unfold Site.record? at found ⊢
        rw [store] at found
        exact .inl found
      tasks := fun {t a} task => by
        have kept := kept (t := t) (by simp [task])
        unfold World.task? at task ⊢
        rw [kept] at task
        exact .inl task
      done := fun {f d y} activity done => by
        rcases same (f := f) with is | is
        · rw [is] at done ⊢
          exact .inl ⟨rfl, done⟩
        · rw [is] at activity
          cases activity
      current := rfl
      mild := fun t task => .ofGet (get_still (still_resolved w x) (World.task?_live task))
      free := fun t none task => absurd (by rw [← none]; unfold World.task?; rw [kept task]) task }

theorem proceeds_spawned (stands : S.Stands w) {a : Activity} (due : S.Due (spawned w a) a) :
    S.Proceeds w (spawned w a) where
  toUnlinking := unlinking_spawned w a
  stands := stands.mono (evolves_spawned w a)
  filed found := by
    rw [(same_spawned w a).record?] at found
    exact .inl found
  tasks task := by
    rw [task?_spawned] at task
    split at task
    · exact .inr (Option.some.inj task ▸ due)
    · exact .inl task
  done {f d x} activity done := by
    rw [get_spawned] at activity done ⊢
    split at done
    · cases done
    · next old =>
      rw [if_neg old]
      exact .inl ⟨rfl, done⟩
  current := rfl
  mild t task := (spares_spawned w a t task).mild
  free t none task := by
    rw [task?_spawned] at task
    split at task
    · next new =>
      rw [get_spawned, if_pos new]
      rfl
    · exact absurd none task

theorem proceeds_asked (stands : S.Stands w) {a : Activity} (is : S.Public a) :
    S.Proceeds w (spawned w a) := proceeds_spawned stands (due_asked is)

theorem proceeds_restored (stands : S.Stands w) (c : Store)
    (filed : ∀ {k r}, S.record? (S.restored w c) k = some r →
      S.record? w k = some r ∨ ∃ s, k = .text s ∧ Belongs (S.restored w c) s r) :
    S.Proceeds w (S.restored w c) where
  toUnlinking := unlinking_restored w c
  stands := stands.mono (evolves_restored c w)
  filed := filed
  tasks task := by
    rw [task?_restored] at task
    exact .inl task
  done {f d x} activity done := by
    rw [get_restored _ f (by decide)] at done ⊢
    exact .inl ⟨rfl, done⟩
  current := rfl
  mild t _ := .ofGet (get_restored c t (by decide))
  free t none task := by
    rw [task?_restored] at task
    exact absurd none task

theorem proceeds_removed (stands : S.Stands w) (k : Key) :
    S.Proceeds w (S.restored w ((w.heap.get S.store).remove k)) :=
  proceeds_restored stands _ fun found => by
    rw [record?_removed stands] at found
    split at found
    · cases found
    · exact .inl found

theorem proceeds_recorded (stands : S.Stands w) {p : Phase} {s : String} (label : Value)
    {item : Value} (belongs : ∀ label, Belongs w s ⟨label, .phase p, item⟩) :
    S.Proceeds w (S.restored w ((w.heap.get S.store).set (.phase p) (.text s) label item)) :=
  proceeds_restored stands _ fun found => by
    rw [record?_recorded stands] at found
    split at found
    · next same =>
      obtain rfl := Option.some.inj found
      exact .inr ⟨s, same, (belongs _).mono (unlinking_restored w _ : S.Unlinking w _).toPreserves⟩
    · exact .inl found

theorem proceeds_put (stands : S.Stands w) (s : String) {a : Activity}
    (due : S.Due (spawned w a) a) : S.Proceeds w (S.put w s a) := by
  have spawned := proceeds_spawned stands due
  have store : (Site.spawned w a).heap.get S.store = w.heap.get S.store := (same_spawned w a).store
  have live : (Site.spawned w a).heap.Live (w.heap.fresh .future) :=
    World.task?_live (by simp [task?_spawned])
  have recorded := proceeds_recorded (p := .loading) spawned.stands (.str s)
    fun label => (.loading live : Belongs _ s ⟨label, _, .obj .future (w.heap.fresh .future)⟩)
  rw [store] at recorded
  exact spawned.trans recorded

theorem proceeds_released (stands : S.Stands w) (s : String) (item : Value) :
    S.Proceeds w (S.released w s item) := by
  have removed := proceeds_removed stands (.text s)
  exact removed.trans (proceeds_asked removed.stands rfl)

theorem proceeds_taken (chronicle : S.Chronicle none w) {s : String} {label item : Value}
    (markLoaded report : Bool)
    (found : S.record? w (.text s) = some ⟨label, .phase .pending, item⟩) :
    S.Proceeds w (S.put (S.released w s item) s
      (.settle S.loader (.str s) (.obj .future (w.heap.fresh .future)) markLoaded report)) := by
  have released := proceeds_released chronicle.stands s item
  obtain ⟨r, is, belongs⟩ := chronicle.filed found
  obtain rfl : s = r := by simpa using is
  cases belongs with
  | @pending _ d named =>
    let settle : Activity :=
      .settle S.loader (.str s) (.obj .future (w.heap.fresh .future)) markLoaded report
    have delivers : S.Delivers (spawned (S.released w s (.obj .draft d)) settle) s
        (w.heap.fresh .future) := by
      refine Delivers.mono (unlinking_spawned (S := S) _ _).toPreserves ⟨d, ?_, released.named named⟩
      rw [get_released, if_pos rfl]
      rfl
    refine released.trans (proceeds_put released.stands s ⟨?_, fun r f m p same => ?_⟩)
    · obtain ⟨e, activity, -⟩ := delivers
      exact .settle (.registered activity)
    · cases same
      exact delivers

def chronicling (S : Desk) : S.Ledger :=
  have steps {w v : World} (chronicle : S.Chronicle none w) (proceeds : S.Proceeds w v) :
      S.Proceeds w v ∧ S.Chronicle none v := ⟨proceeds, chronicle.continued proceeds.toContinues⟩
  { fine := S.Chronicle none
    keeps := fun w v => S.Proceeds w v ∧ S.Chronicle none v
    refl := fun chronicle => steps chronicle (.refl chronicle.stands)
    trans := fun first next => ⟨first.1.trans next.1, next.2⟩
    sound := And.right
    starts := True
    quiet := fun chronicle near => steps chronicle
      (.ofTame chronicle.stands near.tame (names_kept near.still.evolves))
    failure := fun {w f} chronicle => steps chronicle (proceeds_failure chronicle.stands f)
    stands := Chronicle.stands
    inFlight := fun chronicle found => by
      obtain ⟨s, -, belongs⟩ := chronicle.filed found
      cases belongs with
      | @loading _ t _ => exact ⟨t, rfl⟩
    resolved := fun x chronicle => steps chronicle (proceeds_resolved chronicle.stands x)
    reported := fun s chronicle => steps chronicle (proceeds_asked chronicle.stands rfl)
    fetched := fun chronicle _ => steps chronicle
      (proceeds_asked chronicle.stands ⟨rfl, _, rfl⟩)
    begun := fun {w s c parent} chronicle live activity _ => steps chronicle
      (proceeds_put chronicle.stands s
        ⟨.settle (.fetch ((evolves_spawned w _).live live) (by
            rw [(evolves_spawned w _).endures.coroutines c live, activity])),
          fun _ _ _ _ same => by cases same⟩)
    taken := fun m r _ chronicle found => steps chronicle (proceeds_taken chronicle m r found)
    registered := fun {w s d p} label chronicle registers => steps chronicle
      (proceeds_recorded chronicle.stands label fun label => by
        cases p with
        | loading => exact absurd rfl registers.settled
        | pending => exact .pending registers.name
        | loaded => exact .loaded fun e is => by cases is; exact registers.name)
    grouped := fun chronicle turns current spares _ new => steps chronicle
      (.ofTurns chronicle.stands turns current (fun t task => (spares t task).mild) new) }

end Desk
end AsyncImport
