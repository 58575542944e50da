import AsyncImport.Proofs.Edits
import AsyncImport.Proofs.Moves

/-!
# Names in flight

How a loader's records are read, and what is new in the world when a name is put in flight: for a
fetch that is started, and for a registration that is taken up.
-/

namespace AsyncImport

theorem Heap.key?_text {h : Heap} {x : Value} {s : String} (key : h.key? x = some (.text s)) :
    x = .str s := by
  unfold Heap.key? Heap.keyFrom at key
  cases x with
  | obj k r =>
    unfold Heap.keyWith at key
    split at key <;> simp_all [Option.bind_eq_some_iff]
  | real x =>
    unfold Heap.keyWith at key
    split at key <;> simp_all
  | _ => simp_all [Heap.keyWith, Option.bind_eq_some_iff]

namespace Site

open Edit

variable {S : Site} {u v w : World}

/-! ## Reading records -/

@[simp] theorem run_key_str (s : String) (w : World) :
    (key (.str s)).run w = (.ok (.text s), w) := rfl

theorem run_managerOf (stands : S.Stands w) :
    (Loader.managerOf S.loader).run w = (.ok S.manager, w) := by
  simp [Loader.managerOf, run_bind, stands.works]

theorem run_storeOf (stands : S.Stands w) :
    (Loader.storeOf S.loader).run w = (.ok (w.heap.get S.store), w) := by
  simp [Loader.storeOf, run_bind, stands.stores]

theorem run_find (m : Ref .manager) (s : String) (w : World) :
    (Manager.find m (.str s)).run w = (.ok ((w.heap.get m).modules.get? s), w) := by
  simp [Manager.find, run_bind, Quiet.run_map, Value.str?]

theorem run_managerHas (m : Ref .manager) (s : String) (w : World) :
    (Manager.has m (.str s)).run w = (.ok ((w.heap.get m).modules.get? s).isSome, w) := by
  simp [Manager.has, Quiet.run_map, run_find]

theorem run_isIn (stands : S.Stands w) (p : Phase) (s : String) :
    (Loader.isIn S.loader p (.str s)).run w =
      (.ok ((w.heap.get S.store).holds (.phase p) (.text s)), w) := by
  simp [Loader.isIn, run_bind, Quiet.run_map, run_storeOf stands]

theorem run_itemIn (stands : S.Stands w) (p : Phase) (s : String) :
    (Loader.itemIn S.loader p (.str s)).run w =
      (.ok ((w.heap.get S.store).get? (.phase p) (.text s)), w) := by
  simp [Loader.itemIn, run_bind, Quiet.run_map, run_storeOf stands]

theorem run_has (stands : S.Stands w) (s : String) :
    (Loader.has S.loader (.str s)).run w =
      (.ok ((w.heap.get S.store).contains (.text s)), w) := by
  simp [Loader.has, run_bind, Quiet.run_map, run_storeOf stands]

theorem run_remove (stands : S.Stands w) (s : String) :
    Loader.remove S.loader (.str s) w =
      (.ok (((w.heap.get S.store).item? (.text s)).getD .none),
        S.restored w ((w.heap.get S.store).remove (.text s))) := by
  simp [Loader.remove, Loader.updateStore, run_bind, run_map, run_storeOf stands, stands.stores,
    restored]

theorem run_setItem (stands : S.Stands w) (p : Phase) (s : String) (item : Value) :
    Loader.setItem S.loader p (.str s) item w =
      (.ok (), S.restored w ((w.heap.get S.store).set (.phase p) (.text s) (.str s) item)) := by
  simp [Loader.setItem, Loader.updateStore, run_bind, stands.stores, restored]

theorem holds_iff {p : Phase} {k : Key} :
    (w.heap.get S.store).holds (.phase p) k = true ↔
      ∃ label item, S.record? w k = some ⟨label, .phase p, item⟩ := by
  unfold Store.holds record?
  cases found : (w.heap.get S.store).records.get? k with
  | none => simp
  | some r =>
    obtain ⟨label, phase, item⟩ := r
    simp

theorem get?_eq_some {p : Phase} {k : Key} {item : Value} :
    (w.heap.get S.store).get? (.phase p) k = some item ↔
      ∃ label, S.record? w k = some ⟨label, .phase p, item⟩ := by
  unfold Store.get? record?
  cases found : (w.heap.get S.store).records.get? k with
  | none => simp
  | some r =>
    obtain ⟨label, phase, it⟩ := r
    by_cases same : phase = .phase p <;> simp [same]

theorem idle_of_get? {s : String}
    (none : (w.heap.get S.store).get? (.phase .loading) (.text s) = none) :
    ∀ r, S.record? w (.text s) = some r → r.phase ≠ .phase .loading := by
  rintro ⟨label, phase, item⟩ found rfl
  have := get?_eq_some.mpr ⟨label, found⟩
  simp [none] at this

theorem idle_of_holds {p : Phase} {s : String} (settled : p ≠ .loading)
    (holds : (w.heap.get S.store).holds (.phase p) (.text s) = true) :
    ∀ r, S.record? w (.text s) = some r → r.phase ≠ .phase .loading := by
  rintro r found
  obtain ⟨label, item, known⟩ := holds_iff.mp holds
  obtain rfl := Option.some.inj (known.symm.trans found)
  simpa using settled

theorem isIn_filed (stands : S.Stands w)
    (texts : ∀ {k r}, S.record? w k = some r → ∃ s, k = .text s) {p : Phase} {name : Value}
    (run : (Loader.isIn S.loader p name).run w = (.ok true, v)) : ∃ s label item,
      name = .str s ∧ S.record? w (.text s) = some ⟨label, .phase p, item⟩ ∧ v = w := by
  unfold Loader.isIn at run
  simp only [Quiet.run_bind, run_bind, run_storeOf stands, key, Quiet.run_heap] at run
  cases known : w.heap.key? name with
  | none =>
    rw [known] at run
    cases run
  | some j =>
    rw [known] at run
    injection run with held same
    obtain ⟨label, item, found⟩ := holds_iff.mp (Except.ok.inj held)
    obtain ⟨s, rfl⟩ := texts found
    exact ⟨s, label, item, Heap.key?_text known, found, same.symm⟩

theorem itemIn_filed (stands : S.Stands w)
    (texts : ∀ {k r}, S.record? w k = some r → ∃ s, k = .text s) {p : Phase} {name item : Value}
    (run : (Loader.itemIn S.loader p name).run w = (.ok (some item), v)) : ∃ s label,
      name = .str s ∧ S.record? w (.text s) = some ⟨label, .phase p, item⟩ ∧ v = w := by
  unfold Loader.itemIn at run
  simp only [Quiet.run_bind, run_bind, run_storeOf stands, key, Quiet.run_heap] at run
  cases known : w.heap.key? name with
  | none =>
    rw [known] at run
    cases run
  | some j =>
    rw [known] at run
    injection run with held same
    obtain ⟨label, found⟩ := get?_eq_some.mp (Except.ok.inj held)
    obtain ⟨s, rfl⟩ := texts found
    exact ⟨s, label, Heap.key?_text known, found, same.symm⟩

/-- What is pending is a draft of the name. -/
theorem Tidy.pending (tidy : S.Tidy w) {s : String} {label item : Value}
    (found : S.record? w (.text s) = some ⟨label, .phase .pending, item⟩) :
    ∃ d : Ref .draft, item = .obj .draft d ∧ w.heap.Live d ∧ (w.heap.get d).name = .str s := by
  obtain ⟨r, name, sound⟩ := tidy.records found
  obtain rfl : s = r := by simpa using name
  cases sound with
  | pending live name => exact ⟨_, rfl, live, name⟩

/-- What is in flight is a task that settles the record of the name. -/
theorem Tidy.inFlight (tidy : S.Tidy w) {s : String} {label item : Value}
    (found : S.record? w (.text s) = some ⟨label, .phase .loading, item⟩) :
    ∃ t work, item = .obj .future t ∧ w.task? t ≠ none ∧ S.Settles w t s work := by
  obtain ⟨r, name, sound⟩ := tidy.records found
  obtain rfl : s = r := by simpa using name
  cases sound with
  | loading task settles => exact ⟨_, _, rfl, task, settles⟩

/-! ## Putting names in flight -/

theorem stands_spawned (stands : S.Stands w) (a : Activity) : S.Stands (spawned w a) :=
  stands.mono (evolves_spawned w a)

theorem run_spawned (a : Activity) (w : World) :
    spawn a w = (.ok (w.heap.fresh .future), spawned w a) := run_spawn a w

def put (S : Site) (w : World) (s : String) (a : Activity) : World :=
  S.restored (spawned w a) ((w.heap.get S.store).set (.phase .loading) (.text s) (.str s)
    (.obj .future (w.heap.fresh .future)))

section

variable (s : String) (a : Activity)

theorem run_track (stands : S.Stands w) (work : Value) (markLoaded report : Bool) :
    Loader.track S.loader (.str s) work markLoaded report w =
      (.ok (.obj .future (w.heap.fresh .future)),
        S.put w s (.settle S.loader (.str s) work markLoaded report)) := by
  have same := same_spawned (S := S) w (.settle S.loader (.str s) work markLoaded report)
  have moved := run_setItem (stands_spawned stands (.settle S.loader (.str s) work markLoaded report))
    .loading s (.obj .future (w.heap.fresh .future))
  rw [same.store] at moved
  unfold Loader.track
  rw [run_bind, run_spawned]
  simp only [run_bind, moved, run_pure, put]

theorem evolves_put (w : World) : w.Evolves (S.put w s a) :=
  (evolves_spawned w a).trans (evolves_restored _ _)

theorem current_put (w : World) : (S.put w s a).current = w.current := rfl

theorem spares_put (t : Ref .future) (task : w.task? t ≠ none) :
    World.Spares t w (S.put w s a) :=
  (spares_spawned w a t task).trans (.ofGet (get_restored _ t (by decide)))

theorem wired_put (w : World) : w.Wired → (S.put w s a).Wired :=
  wired_restored _ ∘ wired_spawned a

theorem waits_put (w : World) : S.waits (S.put w s a) = S.waits w :=
  (waits_restored _).trans (same_spawned w a).waits

theorem task?_put (w : World) (t : Ref .future) :
    (S.put w s a).task? t = if t = w.heap.fresh .future then some a else w.task? t :=
  (task?_restored _ t).trans (task?_spawned w a t)

theorem get_put (w : World) (t : Ref .future) :
    (S.put w s a).heap.get t =
      if t = w.heap.fresh .future then { origin := .task a none false } else w.heap.get t :=
  (get_restored _ t (by decide)).trans (get_spawned w a t)

theorem record?_put (stands : S.Stands w) (k : Key) : ∃ label, S.record? (S.put w s a) k =
    if k = .text s then some ⟨label, .phase .loading, .obj .future (w.heap.fresh .future)⟩
    else S.record? w k := by
  unfold put
  simp only [record?_restored _ (stands_spawned stands a)]
  unfold Store.set
  exact ⟨_, Assoc.get?_insert ..⟩

theorem loading_put (stands : S.Stands w) :
    S.Loading (S.put w s a) s (w.heap.fresh .future) := by
  obtain ⟨label, found⟩ := record?_put s a stands (.text s)
  exact ⟨label, found.trans (if_pos rfl)⟩

theorem others_put (stands : S.Stands w) (k : Key) (other : k ≠ .text s) :
    S.record? (S.put w s a) k = S.record? w k := by
  obtain ⟨label, found⟩ := record?_put s a stands k
  exact found.trans (if_neg other)

end

theorem launch_fetch (stands : S.Stands w) {s : String} {c : Ref .coroutine}
    (is : S.Work w s (.obj .coroutine c))
    (idle : ∀ r, S.record? w (.text s) = some r → r.phase ≠ .phase .loading)
    (markLoaded report : Bool) :
    S.Launch w (S.put w s (.settle S.loader (.str s) (.obj .coroutine c) markLoaded report)) s
      (.obj .coroutine c) (w.heap.fresh .future) where
  evolves := evolves_put s _ w
  current := rfl
  spares := spares_put s _
  wired := wired_put s _ w
  waits := waits_put s _ w
  idle := idle
  loading := loading_put s _ stands
  others := others_put s _ stands
  new := Heap.not_live_fresh _ _
  settles := ⟨markLoaded, report, by rw [get_put, if_pos rfl]; rfl⟩
  is := is.mono (evolves_put s _ w)
  task := by simp [task?_put]
  fresh := fun {u a} none task => by
    rw [task?_put] at task
    split at task
    · next new =>
      subst new
      obtain rfl := Option.some.inj task
      exact ⟨by rw [get_put, if_pos rfl], .inl rfl⟩
    · rw [none] at task
      cases task

def released (S : Site) (w : World) (s : String) (item : Value) : World :=
  spawned (S.restored w ((w.heap.get S.store).remove (.text s))) (.loadDependencies S.loader item)

section

variable (s : String) (item : Value)

theorem fresh_restored (w : World) (c : Store) :
    (S.restored w c).heap.fresh .future = w.heap.fresh .future := by
  unfold Heap.fresh restored World.set Heap.set
  rw [Heap.table_setTable_ne _ _ (by decide)]

theorem evolves_released (w : World) : w.Evolves (S.released w s item) :=
  (evolves_restored _ w).trans (evolves_spawned _ _)

theorem current_released (w : World) : (S.released w s item).current = w.current := rfl

theorem get_released (w : World) (t : Ref .future) :
    (S.released w s item).heap.get t =
      if t = w.heap.fresh .future then { origin := .task (.loadDependencies S.loader item) none false }
      else w.heap.get t := by
  unfold released
  rw [get_spawned, fresh_restored, get_restored _ t (by decide)]

theorem task?_released (w : World) (t : Ref .future) :
    (S.released w s item).task? t =
      if t = w.heap.fresh .future then some (.loadDependencies S.loader item) else w.task? t := by
  unfold released
  rw [task?_spawned, fresh_restored, task?_restored]

theorem waits_released (w : World) : S.waits (S.released w s item) = S.waits w :=
  (same_spawned _ _).waits.trans (waits_restored _)

theorem record?_released (stands : S.Stands w) (k : Key) :
    S.record? (S.released w s item) k = if k = .text s then none else S.record? w k :=
  ((same_spawned _ _).record? k).trans ((record?_restored _ stands k).trans (Assoc.get?_erase ..))

theorem run_loadPending (stands : S.Stands w) {label : Value}
    (found : S.record? w (.text s) = some ⟨label, .phase .pending, item⟩) :
    Loader.loadPending S.loader (.str s) w =
      (.ok (.obj .future (w.heap.fresh .future)), S.released w s item) := by
  have pending := holds_iff.mpr ⟨label, item, found⟩
  have known : (w.heap.get S.store).item? (.text s) = some item := by
    unfold Store.item?
    rw [show (w.heap.get S.store).records.get? (.text s) = _ from found]
    rfl
  unfold Loader.loadPending
  simp [run_bind, run_map, run_isIn stands, pending, run_remove stands, known, run_spawned,
    fresh_restored, released]

end

theorem launch_pending (tidy : S.Tidy w) {s : String} {label item : Value}
    (found : S.record? w (.text s) = some ⟨label, .phase .pending, item⟩)
    (markLoaded report : Bool) :
    S.Launch w (S.put (S.released w s item) s
        (.settle S.loader (.str s) (.obj .future (w.heap.fresh .future)) markLoaded report)) s
      (.obj .future (w.heap.fresh .future)) ((S.released w s item).heap.fresh .future) := by
  obtain ⟨d, rfl, live, name⟩ := tidy.pending found
  have first := evolves_released (S := S) s (.obj .draft d) w
  have stands := tidy.stands.mono first
  have second := evolves_put (S := S) s (.settle S.loader (.str s)
    (.obj .future (w.heap.fresh .future)) markLoaded report) (S.released w s (.obj .draft d))
  have named : ((S.released w s (.obj .draft d)).heap.get d).name = (w.heap.get d).name :=
    first.follows d live
  have loads : S.Loads (S.released w s (.obj .draft d)) (w.heap.fresh .future) s :=
    ⟨d, by rw [get_released, if_pos rfl]; rfl, first.live live, named.trans name⟩
  have apart : (S.released w s (.obj .draft d)).heap.fresh .future ≠ w.heap.fresh .future :=
    (Heap.ne_fresh (live_of_activity loads.choose_spec.1)).symm
  have old (t : Ref .future) (task : w.task? t ≠ none) :
      World.Spares t w (S.released w s (.obj .draft d)) :=
    .ofGet (by rw [get_released, if_neg (Heap.ne_fresh (World.task?_live task))])
  exact
    { evolves := first.trans second
      current := (current_put s _ _).trans (current_released s _ w)
      spares := fun t task => (old t task).trans (spares_put s _ t (by rwa [(old t task).task?]))
      wired := wired_put s _ _ ∘ wired_spawned _ ∘ wired_restored _
      waits := (waits_put s _ _).trans (waits_released s _ w)
      idle := idle_of_holds (by decide) (holds_iff.mpr ⟨label, _, found⟩)
      loading := loading_put s _ stands
      others := fun k other => (others_put s _ stands k other).trans
        ((record?_released s _ tidy.stands k).trans (if_neg other))
      new := fun known => Heap.not_live_fresh _ _ (first.live known)
      settles := ⟨markLoaded, report, by rw [get_put, if_pos rfl]; rfl⟩
      is := .registered (loads.mono second)
      task := by simp [task?_put]
      fresh := fun {u a} none task => by
        rw [task?_put] at task
        split at task
        · next new =>
          subst new
          obtain rfl := Option.some.inj task
          exact ⟨by rw [get_put, if_pos rfl], .inl rfl⟩
        · next other =>
          rw [task?_released, none] at task
          split at task
          · next new =>
            subst new
            obtain rfl := Option.some.inj task
            exact ⟨by rw [get_put, if_neg apart.symm, get_released, if_pos rfl],
              .inr ⟨rfl, loads.mono second⟩⟩
          · cases task }

end Site
end AsyncImport
