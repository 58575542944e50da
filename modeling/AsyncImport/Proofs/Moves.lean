import AsyncImport.Proofs.Site

/-!
# Moves

The changes that a loader's edits are made of: each leaves the wait-for graph alone and keeps the
loader's state in order.
-/

namespace AsyncImport.Site

open Relation

variable {S : Site} {u w v : World}

theorem Sound.mono (evolves : w.Evolves v)
    (tasks : ∀ t, w.task? t ≠ none → v.task? t ≠ none) {s : String} {r : Record}
    (sound : S.Sound w s r) : S.Sound v s r := by
  cases sound with
  | loading task settles => exact .loading (tasks _ task) (settles.mono evolves)
  | @pending _ d live name =>
    have kept : (v.heap.get d).name = (w.heap.get d).name := evolves.follows d live
    exact .pending (evolves.live live) (kept.trans name)
  | loaded => exact .loaded

structure Begins (S : Site) (v : World) (t : Ref .future) (a : Activity) : Prop where
  errand : S.Errand v a
  settling : ∀ {name work markLoaded report}, a = .settle S.loader name work markLoaded report →
    ∃ s, name = .str s ∧ S.Work v s work ∧ S.Loading v s t
  owning : S.Owning a → ∃ s, S.Owns v t s ∧ S.next v s = []

theorem Edge.before (tidy : S.Tidy w) (evolves : w.Evolves v) (current : v.current = w.current)
    (spares : ∀ t, w.task? t ≠ none → World.Spares t w v) (waits : S.waits v = S.waits w)
    (kept : ∀ {s t}, S.Loading w s t → S.Loading v s t) {a b : Key} (edge : S.Edge v a b) :
    S.Edge w a b := by
  obtain ⟨edge, aside, counts⟩ := edge
  rw [waits] at edge
  refine ⟨edge, fun t s own is owns => aside t s (current.trans own) is (owns.mono evolves kept),
    fun d is cached => ?_⟩
  obtain ⟨s, rfl, t, g, members, f, work, owns, for_, among, mem, waiting, settles⟩ :=
    counts d is (cached.mono evolves)
  have some : S.next w s ≠ [] := List.ne_nil_of_mem edge
  obtain ⟨r, u, name, owned, task⟩ := tidy.edges some
  obtain rfl : s = r := by simpa using name
  obtain rfl := (owned.mono evolves kept).owner owns
  rw [(spares u task).waitsFor?] at for_
  have expects := tidy.blocked task (fun own => aside u s (current.trans own) rfl owns) for_
  obtain ⟨live, _, is, each⟩ := expects.gathering owned some
  have group : Future.Follows (w.heap.get g) (v.heap.get g) := evolves.follows g live
  have lives := (each f (by rw [group.members, is] at among; cases among; exact mem)).1
  have follows : Future.Follows (w.heap.get f) (v.heap.get f) := evolves.follows f lives
  obtain ⟨markLoaded, report, activity⟩ := settles
  exact ⟨s, rfl, u, g, members, f, work, owned, for_, group.members.symm.trans among, mem,
    undone_of_mono evolves lives waiting, markLoaded, report, follows.activity.symm.trans activity⟩

theorem Tidy.moved (tidy : S.Tidy w) (evolves : w.Evolves v) (current : v.current = w.current)
    (spares : ∀ t, w.task? t ≠ none → World.Spares t w v) (wired : w.Wired → v.Wired)
    (waits : S.waits v = S.waits w)
    (kept : ∀ {s t}, S.Loading w s t → S.Loading v s t)
    (old : ∀ {s t}, S.Loading v s t → w.heap.Live t → S.Loading w s t)
    (records : ∀ {k r}, S.record? v k = some r →
      S.record? w k = some r ∨ ∃ s, k = .text s ∧ S.Sound v s r)
    (fresh : ∀ {t a}, w.task? t = none → v.task? t = some a →
      (v.heap.get t).origin = .task a none false ∧ S.Begins v t a) : S.Moved w v := by
  have tasks (t : Ref .future) (task : w.task? t ≠ none) : v.task? t = w.task? t :=
    (spares t task).task?
  have undone (t : Ref .future) (task : w.task? t ≠ none) : v.task? t ≠ none := by
    rwa [tasks t task]
  have next (s : String) : S.next v s = S.next w s := by
    unfold Site.next
    rw [waits]
  have rely (t : Ref .future) (task : w.task? t ≠ none) : S.Rely t w v :=
    ⟨fun owns => ⟨owns.mono evolves kept, next _⟩,
      ⟨fun given => old given (World.task?_live task), kept⟩⟩
  -- an old task keeps what it had; a new one comes with what it needs
  refine ⟨evolves, current, spares, rely, fun t none task => ?_, waits, ?_⟩
  · obtain ⟨a, task⟩ := Option.ne_none_iff_exists'.mp task
    obtain ⟨origin, begins⟩ := fresh none task
    refine ⟨fun b activity owning => ?_, by simp [Future.waitsFor?, origin]⟩
    have same : b = a := by simpa [Future.activity?, origin] using activity.symm
    exact begins.owning (same ▸ owning)
  refine
    { stands := tidy.stands.mono evolves
      calm := fun {t a f c} waiting origin => ?_
      errands := fun {t a} task => ?_
      records := fun found => ?_
      settling := fun {t name work markLoaded report} task => ?_
      loading := fun {t draft} task => ?_
      edges := fun {k} some => ?_
      acyclic := fun k cycle => tidy.acyclic k (TransGen.mono (fun a b edge =>
        edge.before tidy evolves current spares waits kept) k k cycle)
      wired := wired tidy.wired
      blocked := fun {t f} task other for_ => ?_ }
  · have task : v.task? t = some a :=
      World.task?_eq_some.mpr ⟨waiting, by simp [Future.activity?, origin]⟩
    by_cases known : w.task? t = none
    · exact (by simpa using (fresh known task).1.symm.trans origin : _ ∧ c = false).2
    · exact tidy.calm ((spares t known).status.symm.trans waiting)
        ((spares t known).origin.symm.trans origin)
  · by_cases known : w.task? t = none
    · exact (fresh known task).2.errand
    · exact (tidy.errands ((tasks t known).symm.trans task)).mono evolves
  · rcases records found with before | new
    · obtain ⟨s, name, sound⟩ := tidy.records before
      exact ⟨s, name, sound.mono evolves undone⟩
    · exact new
  · by_cases known : w.task? t = none
    · obtain ⟨s, name, work, loading⟩ := (fresh known task).2.settling rfl
      exact ⟨s, name, work, .inl loading⟩
    · obtain ⟨s, name, work, loading⟩ := tidy.settling ((tasks t known).symm.trans task)
      refine ⟨s, name, work.mono evolves, loading.imp kept fun own => current.trans own⟩
  · by_cases known : w.task? t = none
    · obtain ⟨s, owns, _⟩ := (fresh known task).2.owning rfl
      exact ⟨s, owns⟩
    · obtain ⟨s, owns⟩ := tidy.loading ((tasks t known).symm.trans task)
      exact ⟨s, owns.mono evolves kept⟩
  · rw [waits] at some
    obtain ⟨s, t, name, owns, task⟩ := tidy.edges some
    exact ⟨s, t, name, owns.mono evolves kept, undone t task⟩
  · by_cases known : w.task? t = none
    · obtain ⟨a, task⟩ := Option.ne_none_iff_exists'.mp task
      simp [Future.waitsFor?, (fresh known task).1] at for_
    · exact (tidy.blocked known (current ▸ other) ((spares t known).waitsFor? ▸ for_)).mono evolves
        (rely t known)

theorem Born.later {t : Ref .future} (born : S.Born t w) (spares : World.Spares t w v)
    (rely : S.Rely t w v) : S.Born t v := by
  intro a activity owning
  have same : (v.heap.get t).activity? = (w.heap.get t).activity? := by
    unfold Future.activity?
    rw [spares.origin]
  obtain ⟨s, owns, idle⟩ := born a (same ▸ activity) owning
  obtain ⟨owns, kept⟩ := rely.owns owns
  exact ⟨s, owns, kept.trans idle⟩

namespace Moved

theorem refl (tidy : S.Tidy w) : S.Moved w w where
  evolves := .refl w
  current := rfl
  spares t _ := .refl t w
  rely t _ := .refl t w
  born _ none task := absurd none task
  waits := rfl
  tidy := tidy

theorem trans (first : S.Moved u w) (next : S.Moved w v) : S.Moved u v where
  evolves := first.evolves.trans next.evolves
  current := next.current.trans first.current
  spares t task := (first.spares t task).trans (next.spares t (by rwa [(first.spares t task).task?]))
  rely t task := (first.rely t task).trans (next.rely t (by rwa [(first.spares t task).task?]))
  born t none task := by
    by_cases known : w.task? t = Option.none
    · exact next.born t known task
    · obtain ⟨born, free⟩ := first.born t none known
      have spares := next.spares t known
      exact ⟨born.later spares (next.rely t known), spares.waitsFor?.trans free⟩
  waits := next.waits.trans first.waits
  tidy := next.tidy

end Moved

def Moves (S : Site) (w v : World) : Prop := S.Tidy w → S.Moved w v

/-! ## The single moves -/

theorem Same.ofStill (tidy : S.Tidy w) (still : w.Still v) : S.Same w v where
  store := still.rests S.store tidy.stands.store
  loader := still.rests S.loader tidy.stands.loader
  manager := still.rests S.manager tidy.stands.manager

theorem get_still {t : Ref .future} (still : w.Still v) (live : w.heap.Live t) :
    v.heap.get t = w.heap.get t := still.rests t live

theorem task?_still (still : w.Still v) {t : Ref .future} (none : w.task? t = none) :
    v.task? t = Option.none := by
  by_cases live : w.heap.Live t
  · unfold World.task? at none ⊢
    rwa [get_still still live]
  · by_contra task
    obtain ⟨done, _⟩ := still.fresh t live (World.task?_live task)
    obtain ⟨a, task⟩ := Option.ne_none_iff_exists'.mp task
    exact done (World.task?_eq_some.mp task).1

theorem moves_still (still : w.Still v) : S.Moves w v := by
  intro tidy
  have same := Same.ofStill tidy still
  refine tidy.moved still.evolves still.current
    (fun t task => .ofGet (get_still still (World.task?_live task))) still.wired same.waits same.loading.mpr
    (fun loading _ => same.loading.mp loading) (fun found => .inl ?_) fun none task => ?_
  · rwa [same.record?] at found
  · rw [task?_still still none] at task
    cases task

/-- A passing of the turn that spares all tasks keeps everything in order. -/
theorem moves_turns (turns : w.Turns v) (current : v.current = w.current)
    (spares : ∀ t, w.task? t ≠ none → World.Spares t w v) (wired : w.Wired → v.Wired) :
    S.Moves w v := by
  intro tidy
  have same : S.Same w v :=
    { store := turns.rests S.store (by decide) tidy.stands.store
      loader := turns.rests S.loader (by decide) tidy.stands.loader
      manager := turns.rests S.manager (by decide) tidy.stands.manager }
  refine tidy.moved turns.evolves current spares wired same.waits same.loading.mpr
    (fun loading _ => same.loading.mp loading) (fun found => .inl ?_) fun none task => ?_
  · rwa [same.record?] at found
  · rw [turns.tasks _ none] at task
    cases task

def spawned (w : World) (a : Activity) : World :=
  (w.alloc .future { origin := .task a none false }).enqueue (.step (w.heap.fresh .future))

theorem get_spawned (w : World) (a : Activity) (t : Ref .future) :
    (spawned w a).heap.get t =
      if t = w.heap.fresh .future then { origin := .task a none false } else w.heap.get t :=
  World.get_alloc t _

theorem task?_spawned (w : World) (a : Activity) (t : Ref .future) :
    (spawned w a).task? t = if t = w.heap.fresh .future then some a else w.task? t := by
  unfold World.task?
  rw [get_spawned]
  split <;> rfl

theorem evolves_spawned (w : World) (a : Activity) : w.Evolves (spawned w a) :=
  (World.Evolves.alloc w .future _).trans (.ofHeapEq rfl rfl)

theorem spares_spawned (w : World) (a : Activity) (t : Ref .future) (task : w.task? t ≠ none) :
    World.Spares t w (spawned w a) := by
  refine .ofGet ?_
  rw [get_spawned, if_neg (Heap.ne_fresh (World.task?_live task))]

theorem same_spawned (w : World) (a : Activity) : S.Same w (spawned w a) where
  store := World.get_alloc_kind _ (by decide)
  loader := World.get_alloc_kind _ (by decide)
  manager := World.get_alloc_kind _ (by decide)

theorem wired_spawned (a : Activity) : w.Wired → (spawned w a).Wired := by
  have same (f : Ref .future) (live : w.heap.Live f) : (spawned w a).heap.get f = w.heap.get f := by
    rw [get_spawned, if_neg (Heap.ne_fresh live)]
  have grows : World.Grows w (spawned w a) :=
    { spares := fun f live => .ofGet (same f live)
      reactions := fun f live r mem => by rwa [same f live]
      ready := fun j mem => List.mem_append_left _ mem
      causes := fun mem => .inl ((List.mem_append.mp mem).resolve_right (by simp))
      current := rfl }
  have new (f : Ref .future) (dead : ¬ w.heap.Live f) (live : (spawned w a).heap.Live f) :
      f = w.heap.fresh .future := (World.live_alloc.mp live).resolve_left dead
  refine grows.wired (fun t dead task => ?_) fun f dead live _ none => ?_
  · obtain rfl := new t dead (World.task?_live task)
    exact .inl ⟨by rw [get_spawned, if_pos rfl]; rfl, List.mem_append_right _ (List.mem_singleton.mpr rfl)⟩
  · rw [new f dead live, task?_spawned, if_pos rfl] at none
    cases none

def Foreign (S : Site) : Activity → Prop
  | .settle l _ _ _ _ => l ≠ S.loader
  | .loadDependencies l _ => l ≠ S.loader
  | _ => True

theorem Foreign.begins {a : Activity} (foreign : S.Foreign a) (errand : S.Errand v a)
    (t : Ref .future) : S.Begins v t a where
  errand := errand
  settling := by
    rintro _ _ _ _ rfl
    exact absurd rfl foreign
  owning owns := by
    unfold Owning at owns
    split at owns
    · exact absurd owns foreign
    · exact absurd owns foreign
    · exact owns.elim

theorem moves_spawned {a : Activity} (foreign : S.Foreign a) (errand : S.Errand w a) :
    S.Moves w (spawned w a) := by
  intro tidy
  have same := same_spawned (S := S) w a
  refine tidy.moved (evolves_spawned w a) rfl (spares_spawned w a) (wired_spawned a) same.waits same.loading.mpr
    (fun loading _ => same.loading.mp loading) (fun found => .inl ?_) fun {t b} none task => ?_
  · rwa [same.record?] at found
  · rw [task?_spawned] at task
    split at task
    · next new =>
      obtain rfl := Option.some.inj task
      exact ⟨by rw [get_spawned, if_pos new], foreign.begins (errand.mono (evolves_spawned w a)) t⟩
    · rw [none] at task
      cases task

/-! ## Moves in the store -/

def restored (S : Site) (w : World) (c : Store) : World := w.set S.store c

section

variable (c : Store)

theorem record?_restored (stands : S.Stands w) (k : Key) :
    S.record? (S.restored w c) k = c.records.get? k := by
  unfold record? restored
  rw [World.get_set _ _ _ stands.store, if_pos rfl]

theorem get_restored {k : Kind} (r : Ref k) (ne : k ≠ .store) :
    (S.restored w c).heap.get r = w.heap.get r := World.get_set_kind _ ne

theorem task?_restored (t : Ref .future) : (S.restored w c).task? t = w.task? t := by
  unfold World.task?
  rw [get_restored c t (by decide)]

theorem waits_restored : S.waits (S.restored w c) = S.waits w := by
  unfold Site.waits
  rw [get_restored c S.loader (by decide)]

theorem evolves_restored (w : World) : w.Evolves (S.restored w c) := .set w S.store c trivial

theorem wired_restored : w.Wired → (S.restored w c).Wired :=
  World.wired_set S.store c (by decide)

theorem moves_restored
    (kept : ∀ {s t}, S.Loading w s t → S.Loading (S.restored w c) s t)
    (records : S.Tidy w → ∀ {k r}, c.records.get? k = some r →
      S.record? w k = some r ∨ ∃ s, k = .text s ∧ S.Sound w s r ∧ r.phase ≠ .phase .loading) :
    S.Moves w (S.restored w c) := by
  intro tidy
  have evolves := evolves_restored (S := S) c w
  have undone (t : Ref .future) (task : w.task? t ≠ none) : (S.restored w c).task? t ≠ none := by
    rwa [task?_restored]
  refine tidy.moved evolves rfl (fun t _ => .ofGet (get_restored c t (by decide)))
    (wired_restored c) (waits_restored c) kept
    (fun {s t} loading _ => ?_) (fun found => ?_) fun none task => ?_
  · obtain ⟨label, found⟩ := loading
    rw [record?_restored c tidy.stands] at found
    rcases records tidy found with before | ⟨_, _, _, other⟩
    · exact ⟨label, before⟩
    · exact absurd rfl other
  · rw [record?_restored c tidy.stands] at found
    rcases records tidy found with before | ⟨s, name, sound, _⟩
    · exact .inl before
    · exact .inr ⟨s, name, sound.mono evolves undone⟩
  · rw [task?_restored, none] at task
    cases task

end

theorem moves_removed {k : Key} (idle : ∀ r, S.record? w k = some r → r.phase ≠ .phase .loading) :
    S.Moves w (S.restored w ((w.heap.get S.store).remove k)) := by
  intro tidy
  refine moves_restored _ (fun {s t} loading => ?_) (fun _ {j r} found => ?_) tidy
  · obtain ⟨label, found⟩ := loading
    refine ⟨label, ?_⟩
    rw [record?_restored _ tidy.stands]
    show ((w.heap.get S.store).records.erase k).get? (.text s) = _
    rw [Assoc.get?_erase]
    split
    · next same =>
      subst same
      exact absurd rfl (idle _ found)
    · exact found
  · rw [show (Store.remove _ k).records = (w.heap.get S.store).records.erase k from rfl,
      Assoc.get?_erase] at found
    split at found
    · cases found
    · exact .inl found

theorem moves_recorded {s : String} {p : Phase} {label item : Value}
    (idle : ∀ r, S.record? w (.text s) = some r → r.phase ≠ .phase .loading)
    (sound : ∀ label, S.Sound w s ⟨label, .phase p, item⟩) (settled : p ≠ .loading) :
    S.Moves w (S.restored w ((w.heap.get S.store).set (.phase p) (.text s) label item)) := by
  intro tidy
  refine moves_restored _ (fun {r t} loading => ?_) (fun _ {j r} found => ?_) tidy
  · obtain ⟨label, found⟩ := loading
    refine ⟨label, ?_⟩
    rw [record?_restored _ tidy.stands]
    unfold Store.set
    rw [Assoc.get?_insert]
    split
    · next same => exact absurd rfl (idle _ (same ▸ found))
    · exact found
  · unfold Store.set at found
    rw [Assoc.get?_insert] at found
    split at found
    · next same =>
      obtain rfl := Option.some.inj found
      exact .inr ⟨s, same, sound _, by simpa using settled⟩
    · exact .inl found

/-! ## Caching -/

def cached (S : Site) (w : World) (s : String) (r : Ref .module) : World :=
  w.set S.manager { w.heap.get S.manager with modules := (w.heap.get S.manager).modules.insert s r }

theorem get_cached {s : String} {r : Ref .module} {k : Kind} (o : Ref k) (ne : k ≠ .manager) :
    (S.cached w s r).heap.get o = w.heap.get o := World.get_set_kind _ ne

theorem evolves_cached (w : World) (s : String) (r : Ref .module) : w.Evolves (S.cached w s r) := by
  refine .set w S.manager _ ⟨_, rfl, fun n known => ?_⟩
  rw [Assoc.get?_insert]
  split
  · simp
  · exact known

theorem moves_cached (s : String) (r : Ref .module) : S.Moves w (S.cached w s r) := by
  intro tidy
  have record (k : Key) : S.record? (S.cached w s r) k = S.record? w k := by
    unfold record?
    rw [get_cached S.store (by decide)]
  have loading {n : String} {t : Ref .future} : S.Loading (S.cached w s r) n t ↔ S.Loading w n t := by
    unfold Loading
    rw [record]
  have waits : S.waits (S.cached w s r) = S.waits w := by
    unfold Site.waits
    rw [get_cached S.loader (by decide)]
  have wired : w.Wired → (S.cached w s r).Wired := World.wired_set S.manager _ (by decide)
  refine tidy.moved (evolves_cached w s r) rfl (fun t _ => .ofGet (get_cached t (by decide))) wired
    waits loading.mpr (fun given _ => loading.mp given) (fun found => .inl ?_) fun {t a} none task => ?_
  · rwa [record] at found
  · unfold World.task? at none task
    rw [get_cached t (by decide), none] at task
    cases task

/-! ## Putting names in flight -/

theorem Tidy.next_idle (tidy : S.Tidy w) {s : String}
    (idle : ∀ r, S.record? w (.text s) = some r → r.phase ≠ .phase .loading) : S.next w s = [] := by
  by_contra some
  obtain ⟨n, t, name, owns, _⟩ := tidy.edges some
  obtain rfl : s = n := by simpa using name
  cases owns with
  | fetching loading _ | registered loading _ _ =>
    obtain ⟨label, found⟩ := loading
    exact idle _ found rfl

/-- What is new when a name is put in flight: its record, the task that settles it, and for a
registered name the task that loads its dependencies. -/
structure Launch (S : Site) (w v : World) (s : String) (work : Value) (t : Ref .future) : Prop where
  evolves : w.Evolves v
  current : v.current = w.current
  spares : ∀ t, w.task? t ≠ none → World.Spares t w v
  wired : w.Wired → v.Wired
  waits : S.waits v = S.waits w
  idle : ∀ r, S.record? w (.text s) = some r → r.phase ≠ .phase .loading
  loading : S.Loading v s t
  others : ∀ k, k ≠ .text s → S.record? v k = S.record? w k
  new : ¬ w.heap.Live t
  settles : S.Settles v t s work
  is : S.Work v s work
  task : v.task? t ≠ none
  fresh : ∀ {u a}, w.task? u = none → v.task? u = some a →
    (v.heap.get u).origin = .task a none false ∧
      (u = t ∨ work = .obj .future u ∧ S.Loads v u s)

theorem Launch.moves {s : String} {work : Value} {t : Ref .future}
    (launch : S.Launch w v s work t) : S.Moves w v := by
  intro tidy
  have idle : S.next v s = [] := by
    unfold Site.next
    rw [launch.waits]
    exact tidy.next_idle launch.idle
  refine tidy.moved launch.evolves launch.current launch.spares launch.wired
    launch.waits
    (fun {r u} loading => ?_) (fun {r u} loading live => ?_) (fun {k r} found => ?_)
    fun {u a} none task => ?_
  · obtain ⟨label, found⟩ := loading
    by_cases same : r = s
    · subst same
      exact absurd rfl (launch.idle _ found)
    · exact ⟨label, (launch.others _ (by simpa using same)).trans found⟩
  · by_cases same : r = s
    · subst same
      exact absurd (loading.unique launch.loading ▸ live) launch.new
    · obtain ⟨label, found⟩ := loading
      exact ⟨label, (launch.others _ (by simpa using same)).symm.trans found⟩
  · by_cases same : k = .text s
    · obtain ⟨label, known⟩ := launch.loading
      rw [same] at found
      obtain rfl := Option.some.inj (known.symm.trans found)
      exact .inr ⟨s, same, .loading launch.task launch.settles⟩
    · exact .inl ((launch.others k same).symm.trans found)
  · obtain ⟨origin, which⟩ := launch.fresh none task
    have activity : (v.heap.get u).activity? = some a := by simp [Future.activity?, origin]
    refine ⟨origin, ⟨?_, fun {name work' markLoaded report} is => ?_, fun owning => ?_⟩⟩
    · rcases which with rfl | ⟨-, d, other, -⟩
      · obtain ⟨_, _, known⟩ := launch.settles
        obtain rfl := Option.some.inj (activity.symm.trans known)
        exact .settle
      · obtain rfl := Option.some.inj (activity.symm.trans other)
        exact .loadDependencies
    · rcases which with rfl | ⟨-, d, other, -⟩
      · obtain ⟨_, _, known⟩ := launch.settles
        rw [activity, is] at known
        simp only [Option.some.injEq, Activity.settle.injEq, true_and] at known
        obtain ⟨rfl, rfl, -⟩ := known
        exact ⟨s, rfl, launch.is, launch.loading⟩
      · simp [activity, is] at other
    · rcases which with rfl | ⟨rfl, loads⟩
      · refine ⟨s, ?_, idle⟩
        obtain ⟨_, _, known⟩ := launch.settles
        rw [activity] at known
        obtain rfl := Option.some.inj known
        unfold Owning at owning
        split at owning
        · next is =>
          simp only [Activity.settle.injEq] at is
          obtain ⟨-, -, rfl, -⟩ := is
          exact .fetching launch.loading launch.settles
        · next is => cases is
        · exact owning.elim
      · exact ⟨s, .registered launch.loading launch.settles loads, idle⟩

end AsyncImport.Site
