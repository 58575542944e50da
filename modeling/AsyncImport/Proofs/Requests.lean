import AsyncImport.Loader.Build
import AsyncImport.Proofs.Changes
import AsyncImport.Proofs.Launches

/-!
# Requests

What becomes of a loader's state when a name is requested or registered.
-/

namespace AsyncImport

structure World.Pristine (w : World) (d : Ref .draft) : Prop where
  name : ∃ s, (w.heap.get d).name = .str s ∧ s.isEmpty = false
  deps : ∃ l : Ref .list, (w.heap.get d).deps = .obj .list l ∧ w.heap.Live l
  plugins : ∃ l : Ref .list, (w.heap.get d).plugins = .obj .list l
  format : ∃ f, (w.heap.get d).format = .format f
  attributes : ∃ r : Ref .dict, (w.heap.get d).attributes = .obj .dict r

namespace Site

open Edit Change Relation

variable {S : Site} {u v w : World} {α β : Type}

structure Registers (S : Site) (w : World) (s : String) (d : Ref .draft) (p : Phase) : Prop where
  free : S.record? w (.text s) = none
  uncached : ¬ S.Cached w s
  live : w.heap.Live d
  name : (w.heap.get d).name = .str s
  pristine : w.Pristine d
  phase : p = if w.heap.truthy (w.heap.get d).deps then .pending else .loaded

theorem Registers.settled {s : String} {d : Ref .draft} {p : Phase} (registers : S.Registers w s d p) :
    p ≠ .loading := by
  rw [registers.phase]
  split <;> decide

structure Ledger (S : Site) extends Change where
  /-- Whether registrations are taken up to be built. -/
  starts : Prop
  stands : ∀ {w : World}, fine w → S.Stands w
  inFlight : ∀ {w : World} {s : String} {label item : Value}, fine w →
    S.record? w (.text s) = some ⟨label, .phase .loading, item⟩ → ∃ t, item = .obj .future t
  resolved : ∀ {w : World} (x : Value), fine w → keeps w (w.alloc .future { status := .done x })
  reported : ∀ {w : World} (s : String), fine w →
    keeps w (spawned w (.buildReported S.loader (.str s)))
  fetched : ∀ {w : World} {s : String} {f : Ref .future}, fine w →
    S.Loading w s f ∨ w.heap.Live f ∧ (w.heap.get f).status ≠ .waiting →
    keeps w (spawned w (.buildFetched S.loader (.str s) (.obj .future f)))
  begun : ∀ {w : World} {s : String} {c : Ref .coroutine} {parent : Value}, fine w → w.heap.Live c →
    (w.heap.get c).activity = .fetchDraft S.loader (.str s) parent →
    (∀ p : Phase, (w.heap.get S.store).holds (.phase p) (.text s) = false) →
    keeps w (S.put w s (.settle S.loader (.str s) (.obj .coroutine c) true true))
  taken : ∀ {w : World} {s : String} {label item : Value} (markLoaded report : Bool),
    markLoaded = true ∨ starts → fine w →
    S.record? w (.text s) = some ⟨label, .phase .pending, item⟩ →
    keeps w (S.put (S.released w s item) s
      (.settle S.loader (.str s) (.obj .future (w.heap.fresh .future)) markLoaded report))
  registered : ∀ {w : World} {s : String} {d : Ref .draft} {p : Phase} (label : Value), fine w →
    S.Registers w s d p →
    keeps w (S.restored w
      ((w.heap.get S.store).set (.phase p) (.text s) label (.obj .draft d)))
  grouped : ∀ {w v : World}, fine w → w.Turns v → v.current = w.current →
    (∀ t, w.task? t ≠ none → World.Spares t w v) → (w.Wired → v.Wired) →
    (∀ f : Ref .future, ¬ w.heap.Live f → (v.heap.get f).activity? = none) → keeps w v

variable {L : S.Ledger}

theorem run_orM (x y : Edit Bool) (w : World) :
    (x <||> y) w = match x w with
      | (.ok true, v) => (.ok true, v)
      | (.ok false, v) => y v
      | (.error e, v) => (.error e, v) := by
  unfold orM
  rw [run_bind]
  rcases x w with ⟨_ | _ | _, _⟩ <;> rfl

/-! ## Futures that are done -/

theorem still_resolved (w : World) (x : Value) : w.Still (w.alloc .future { status := .done x }) where
  ready := rfl
  current := rfl
  functions := rfl
  size := (World.Evolves.alloc w .future _).size
  rests {k} r live := by
    have same : (w.alloc .future { status := .done x }).heap.get r = w.heap.get r := by
      by_cases e : k = .future
      · subst e
        rw [World.get_alloc, if_neg (Heap.ne_fresh live)]
      · exact World.get_alloc_kind _ e
    rw [same]
    exact Cell.Rests.refl _ _
  fresh f dead live := by
    rcases World.live_alloc.mp live with old | rfl
    · exact absurd old dead
    · rw [World.get_alloc, if_pos rfl]
      exact ⟨by simp, rfl⟩

theorem does_resolved (x : Value) : L.Does (resolved x) w fun f v =>
    w.Still v ∧ v.heap.get f = { status := .done x } ∧ ¬ w.heap.Live f ∧ v.heap.Live f :=
  does_ok (run_create _ w) (L.resolved x) fun _ =>
    ⟨still_resolved w x, Heap.get_alloc_fresh _ _, Heap.not_live_fresh _ _,
      Heap.live_fresh_alloc _ _⟩

theorem does_spawn {a : Activity} (keeps : L.fine w → L.keeps w (spawned w a)) :
    L.Does (spawn a) w fun t v => v.task? t = some a ∧ ¬ w.heap.Live t :=
  does_ok (run_spawned a w) keeps fun _ =>
    ⟨by rw [task?_spawned, if_pos rfl], Heap.not_live_fresh _ _⟩

/-! ## Fetching -/

inductive Fetched (S : Site) (w v : World) (s : String) (parent : Value) (f : Ref .future) : Prop
  /-- The name is there already. -/
  | known {x : Value} (known : S.Cached w s ∨ ∃ label item,
        S.record? w (.text s) = some ⟨label, .phase .loaded, item⟩)
      (status : (v.heap.get f).status = .done x) (live : v.heap.Live f)
  /-- The name is in flight already, and does not wait for the other one. -/
  | shared (before : S.Loading w s f) (after : S.Loading v s f)
      (apart : ∀ p, (nameOf parent).run w = (.ok (.str p), w) →
        ¬ ReflTransGen (S.waits w).Edge (.text s) (.text p))
  /-- The name has been put in flight. -/
  | begun (idle : ∀ r, S.record? w (.text s) = some r → r.phase ≠ .phase .loading)
      (after : S.Loading v s f) (new : ¬ w.heap.Live f)

theorem run_checkName (name : Value) (w : World) :
    (checkName name).run w = if name.isName then (.ok (), w) else (.error (.draft .noRequest), w) := by
  unfold checkName
  cases name.isName <;> rfl

theorem isName_iff {name : Value} : name.isName = true ↔ ∃ s, name = .str s ∧ s.isEmpty = false := by
  cases name <;> simp [Value.isName]

theorem nameOf_world (x : Value) (w : World) : ((nameOf x).run w).2 = w := by
  unfold nameOf
  split <;> simp [run_bind, Quiet.run_map]

theorem checkCycle_world (l : Ref .loader) (s p : Value) (w : World) :
    (Loader.checkCycle l s p w).2 = w := by
  unfold Loader.checkCycle key
  cases first : w.heap.key? s with
  | none => simp [run_bind, first]
  | some k =>
    cases second : w.heap.key? p with
    | none => simp [run_bind, first, second]
    | some j =>
      cases path : (w.heap.get l).waits.path? k j with
      | none => simp [run_bind, first, second, path]
      | some names =>
        simp only [run_bind, first, second, path, run_lift, Quiet.run_bind, Quiet.run_heap,
          Quiet.run_pure, run_pure, Quiet.run_read]
        split <;> rfl

/-- A check for cycles that passes has looked along every path. -/
theorem apart_of_checkCycle {s p : String} {x : Unit}
    (run : Loader.checkCycle S.loader (.str s) (.str p) w = (.ok x, v)) :
    ¬ ReflTransGen (S.waits w).Edge (.text s) (.text p) := by
  unfold Loader.checkCycle at run
  cases path : (w.heap.get S.loader).waits.path? (.text s) (.text p) with
  | none => exact Waits.not_reaches_of_path?_none path
  | some names =>
    simp only [run_bind, path, run_lift, run_key_str, Quiet.run_read] at run
    split at run <;> cases run

theorem does_shared {s : String} (parent : Value) {t : Ref .future} (loading : S.Loading w s t) :
    L.Does (do
      unless parent = .none do
        Loader.checkCycle S.loader (.str s) (← nameOf parent)
      return .obj .future t : Edit Value) w fun x v =>
        x = .obj .future t ∧ S.Fetched w v s parent t := by
  split
  · next none =>
    refine does_pure fun _ => ⟨rfl, .shared loading loading fun p named => ?_⟩
    subst none
    cases named
  · have looked := nameOf_world parent w
    rcases named : (nameOf parent).run w with ⟨e | p, u⟩ <;> rw [named] at looked <;>
      simp only at looked <;> subst looked
    · exact does_fail fun _ => named
    refine does_look (fun _ => named) ?_
    have searched := checkCycle_world S.loader (.str s) p u
    rcases checked : Loader.checkCycle S.loader (.str s) p u with ⟨e | ⟨⟩, r⟩ <;>
      rw [checked] at searched <;> simp only at searched <;> subst searched
    · exact does_fail fun _ => checked
    refine does_look (fun _ => checked) (does_pure fun _ => ⟨rfl, ?_⟩)
    refine .shared loading loading fun q same => ?_
    rw [named] at same
    cases same
    exact apart_of_checkCycle checked

theorem cached_iff {s : String} :
    ((w.heap.get S.manager).modules.get? s).isSome = true ↔ S.Cached w s := by
  unfold Cached
  cases (w.heap.get S.manager).modules.get? s <;> simp

theorem does_begin {s : String} (parent : Value)
    (free : ∀ p : Phase, (w.heap.get S.store).holds (.phase p) (.text s) = false) :
    L.Does (do
      Loader.track S.loader (.str s) (← suspended (.fetchDraft S.loader (.str s) parent)) true true :
        Edit Value) w fun x v =>
      ∃ t, x = .obj .future t ∧ S.Loading v s t ∧ ¬ w.heap.Live t := by
  let c : World := w.alloc .coroutine { activity := .fetchDraft S.loader (.str s) parent }
  have near : w.Near c := .ofAlloc (k := .coroutine) w _ rfl trivial
  intro fine
  have keeps := L.quiet fine near
  have stands := L.stands (L.sound keeps)
  have store : c.heap.get S.store = w.heap.get S.store := World.get_alloc_kind _ (by decide)
  have activity : (c.heap.get (w.heap.fresh .coroutine)).activity =
      .fetchDraft S.loader (.str s) parent := by rw [World.get_alloc, if_pos rfl]
  have begun := L.begun (L.sound keeps) (Heap.live_fresh_alloc _ _) activity fun p => store ▸ free p
  have run : (do
      Loader.track S.loader (.str s) (← suspended (.fetchDraft S.loader (.str s) parent)) true true :
        Edit Value) w = (.ok (.obj .future (c.heap.fresh .future)),
          S.put c s (.settle S.loader (.str s) (.obj .coroutine (w.heap.fresh .coroutine)) true true)) := by
    rw [run_bind]
    simp only [run_lift, suspended, Quiet.run_bind, run_bind, Quiet.run_pure, run_pure]
    exact run_track s stands _ _ _
  rw [run]
  refine ⟨L.trans keeps begun, fun x same => ?_⟩
  cases same
  exact ⟨_, rfl, loading_put s _ stands,
    fun live => Heap.not_live_fresh _ _ (near.still.evolves.live live)⟩

theorem does_taken {s : String} {label item : Value} (markLoaded report : Bool)
    (may : markLoaded = true ∨ L.starts)
    (found : S.record? w (.text s) = some ⟨label, .phase .pending, item⟩) :
    L.Does (do
      Loader.track S.loader (.str s) (← Loader.loadPending S.loader (.str s)) markLoaded report :
        Edit Value) w fun x v => ∃ t, x = .obj .future t ∧ S.Loading v s t ∧ ¬ w.heap.Live t := by
  intro fine
  have evolves := evolves_released (S := S) s item w
  have stands := (L.stands fine).mono evolves
  rw [run_bind, run_loadPending s item (L.stands fine) found]
  simp only [run_track s stands]
  refine ⟨L.taken markLoaded report may fine found, fun x same => ?_⟩
  cases same
  exact ⟨_, rfl, loading_put s _ stands, fun live => Heap.not_live_fresh _ _ (evolves.live live)⟩

theorem does_known {s : String} {parent : Value}
    (known : S.Cached w s ∨ ∃ label item,
      S.record? w (.text s) = some ⟨label, .phase .loaded, item⟩) :
    L.Does (do return .obj .future (← resolved (← Loader.delegate S.loader (.str s))) : Edit Value) w
      fun x v => ∃ f, x = .obj .future f ∧ S.Fetched w v s parent f := by
  refine does_bind (does_quiet _) fun delegate u _ _ => ?_
  refine does_bind (does_resolved delegate) fun f v _ ⟨_, is, _, live⟩ => ?_
  exact does_pure fun _ => ⟨f, rfl, .known (x := delegate) known (by rw [is]) live⟩

theorem does_fetch (name parent : Value) :
    L.Does (Loader.fetch S.loader name parent) w fun x v =>
      ∃ s f, name = .str s ∧ x = .obj .future f ∧ S.Fetched w v s parent f := by
  unfold Loader.fetch
  by_cases proper : name.isName
  case neg => exact does_fail (e := .draft .noRequest) fun _ => by simp [run_checkName, proper]
  refine does_look (a := ()) (fun _ => by simp [run_checkName, proper]) ?_
  obtain ⟨s, rfl, -⟩ := isName_iff.mp proper
  refine does_look (fun fine => run_managerOf (L.stands fine)) ?_
  let found := ((w.heap.get S.manager).modules.get? s).isSome ||
    (w.heap.get S.store).holds (.phase .loaded) (.text s)
  refine does_look (a := found) (fun fine => ?_) ?_
  · simp only [run_orM, run_lift, run_managerHas, found]
    cases ((w.heap.get S.manager).modules.get? s).isSome
    · exact run_isIn (L.stands fine) .loaded s
    · rfl
  by_cases known : found
  · rw [if_pos known]
    have known : S.Cached w s ∨ ∃ label item,
        S.record? w (.text s) = some ⟨label, .phase .loaded, item⟩ :=
      (Bool.or_eq_true _ _ ▸ known).imp cached_iff.mp holds_iff.mp
    exact (does_known known).mono fun x v _ ⟨f, is, fetched⟩ => ⟨s, f, rfl, is, fetched⟩
  rw [if_neg known]
  refine does_look (fun fine => run_itemIn (L.stands fine) .loading s) ?_
  cases item : (w.heap.get S.store).get? (.phase .loading) (.text s) with
  | some item =>
    obtain ⟨label, found⟩ := get?_eq_some.mp ‹_›
    intro fine
    obtain ⟨t, rfl⟩ := L.inFlight fine found
    have shared : L.Does (_ : Edit Value) w fun x v =>
        ∃ r f, Value.str s = .str r ∧ x = .obj .future f ∧ S.Fetched w v r parent f :=
      (does_shared parent ⟨label, found⟩).mono
        fun x v _ ⟨is, fetched⟩ => ⟨s, t, rfl, is, fetched⟩
    exact shared fine
  | none =>
    have idle := idle_of_get? item
    refine does_look (fun fine => run_isIn (L.stands fine) .pending s) ?_
    split
    · next pending =>
      obtain ⟨label, item, found⟩ := holds_iff.mp pending
      exact (does_taken true true (.inl rfl) found).mono fun x v _ ⟨t, is, loading, new⟩ =>
        ⟨s, t, rfl, is, .begun idle loading new⟩
    next pending =>
    -- there is no record of the name in any phase
    have free (p : Phase) : (w.heap.get S.store).holds (.phase p) (.text s) = false := by
      rw [Bool.eq_false_iff]
      intro held
      cases p with
      | loading =>
        obtain ⟨label, item, found⟩ := holds_iff.mp held
        exact idle _ found rfl
      | pending => exact pending held
      | loaded => exact known (Bool.or_eq_true _ _ ▸ .inr held)
    have begin_ (parentName : Value) : L.Does (do
        debug "loader.fetch" [("module", .str s), ("parent", parentName)]
        Loader.track S.loader (.str s)
          (← suspended (.fetchDraft S.loader (.str s) parent)) true true : Edit Value) w
        fun x v => ∃ r f, Value.str s = .str r ∧ x = .obj .future f ∧ S.Fetched w v r parent f := by
      refine does_fine fun fine => ?_
      refine does_bind (does_quiet _) fun _ u _ ⟨near, _⟩ => ?_
      have store : u.heap.get S.store = w.heap.get S.store :=
        near.still.rests S.store (L.stands fine).store
      have fresh := does_begin (L := L) (w := u) (s := s) parent fun p => store ▸ free p
      exact fresh.mono fun x v _ ⟨t, is, loading, new⟩ =>
        ⟨s, t, rfl, is, .begun idle loading fun live => new (near.still.evolves.live live)⟩
    refine does_look (a := w.heap.truthy parent) (fun _ => by simp [truthy, Quiet.run_map]) ?_
    split
    · have looked := nameOf_world parent w
      rcases named : (nameOf parent).run w with ⟨e | p, u⟩ <;> rw [named] at looked <;>
        simp only at looked <;> subst looked
      · exact does_fail fun _ => named
      · exact does_look (fun _ => named) (begin_ p)
    · exact does_look (fun _ => rfl) (begin_ .none)

/-! ## Loading -/

theorem Fetched.settled {s : String} {parent : Value} {f : Ref .future}
    (fetched : S.Fetched w v s parent f) :
    S.Loading v s f ∨ v.heap.Live f ∧ (v.heap.get f).status ≠ .waiting := by
  cases fetched with
  | known _ status live => exact .inr ⟨live, by simp [status]⟩
  | shared _ after _ | begun _ after _ => exact .inl after

theorem activity_of_task {t : Ref .future} {a : Activity} (task : w.task? t = some a) :
    (w.heap.get t).activity? = some a := (World.task?_eq_some.mp task).2

theorem does_load (name parent : Value) :
    L.Does (Loader.load S.loader name parent) w fun x v => ∃ s f, name = .str s ∧
      x = .obj .future f ∧ v.heap.Live f ∧ ((v.heap.get f).status ≠ .waiting ∨ S.Builds v f s) := by
  unfold Loader.load
  by_cases proper : name.isName
  case neg => exact does_fail (e := .draft .noRequest) fun _ => by simp [run_checkName, proper]
  refine does_look (a := ()) (fun _ => by simp [run_checkName, proper]) ?_
  obtain ⟨s, rfl, -⟩ := isName_iff.mp proper
  refine does_look (fun fine => run_managerOf (L.stands fine)) ?_
  refine does_look (fun _ => run_find S.manager s w) ?_
  have built {a : Activity} (u : World) (keeps : L.fine u → L.keeps u (spawned u a))
      (is : a = .buildReported S.loader (.str s) ∨ ∃ g, a = .buildFetched S.loader (.str s) g) :
      L.Does (do return .obj .future (← spawn a) : Edit Value) u fun x v => ∃ r f,
        Value.str s = .str r ∧ x = .obj .future f ∧ v.heap.Live f ∧
          ((v.heap.get f).status ≠ .waiting ∨ S.Builds v f r) := by
    refine does_bind (does_spawn keeps) fun t v _ ⟨task, _⟩ => does_pure fun _ => ?_
    have activity := activity_of_task task
    refine ⟨s, t, rfl, rfl, World.task?_live (by simp [task]), .inr ?_⟩
    rcases is with rfl | ⟨g, rfl⟩
    · exact .inl activity
    · exact .inr ⟨g, activity⟩
  cases (w.heap.get S.manager).modules.get? s with
  | some module =>
    refine does_bind (does_resolved _) fun f v _ ⟨_, is, _, live⟩ => does_pure fun _ => ?_
    exact ⟨s, f, rfl, rfl, live, .inl (by simp [is])⟩
  | none =>
    let found := (w.heap.get S.store).holds (.phase .loaded) (.text s) ||
      (w.heap.get S.store).holds (.phase .pending) (.text s)
    refine does_look (a := found) (fun fine => ?_) ?_
    · simp only [run_orM, run_lift, run_isIn (L.stands fine), found]
      cases (w.heap.get S.store).holds (.phase .loaded) (.text s)
      · exact run_isIn (L.stands fine) .pending s
      · rfl
    split
    · exact built w (L.reported s) (.inl rfl)
    · refine does_bind (does_fetch _ parent) fun fetching v _ ⟨r, f, name, is, fetched⟩ => ?_
      cases name
      subst is
      exact built v (fun fine => L.fetched fine fetched.settled) (.inr ⟨_, rfl⟩)

/-! ## Registering -/

theorem ok_of_bind {x : Quiet α} {f : α → Quiet β} {b : β}
    (run : (x >>= f).run w = (.ok b, v)) :
    ∃ a u, x.run w = (.ok a, u) ∧ (f a).run u = (.ok b, v) := bind_ok run

theorem made {k : Kind} {c : Cell k} {data : k.isData = true} {straight : Cell.Straight k c}
    {r : Ref k} (run : (make k c data straight).run w = (.ok r, v)) : v.heap.Live r ∧ v.heap.get r = c := by
  cases run
  exact ⟨Heap.live_fresh_alloc _ _, Heap.get_alloc_fresh _ _⟩

def Refilled (d : Ref .draft) (w v : World) : Prop :=
  v.heap.Live d ∧ ∃ c, v.heap.get d = { w.heap.get d with content := c }

theorem refilled (c : Value) {d : Ref .draft} (live : w.heap.Live d) :
    Refilled d w (w.set d { w.heap.get d with content := c }) :=
  ⟨World.live_set.mpr live, c, by rw [World.get_set _ _ _ live, if_pos rfl]⟩

theorem Refilled.trans {d : Ref .draft} (first : Refilled d u w) (next : Refilled d w v) :
    Refilled d u v := by
  obtain ⟨-, b, one⟩ := first
  obtain ⟨live, c, two⟩ := next
  exact ⟨live, c, by rw [two, one]⟩

theorem filled {o : Draft.Options} {d : Ref .draft} {x : Unit} (live : w.heap.Live d)
    (run : (Draft.fill d o).run w = (.ok x, v)) : Refilled d w v := by
  have stays {u : World} (live : u.heap.Live d) : Refilled d u u := ⟨live, _, rfl⟩
  have code {x : Unit} {u : World} (live : u.heap.Live d)
      (run : (o.code.forM (Draft.setCode d)).run u = (.ok x, v)) : Refilled d u v := by
    cases is : o.code with
    | none =>
      rw [is] at run
      cases run
      exact stays live
    | some c =>
      rw [is] at run
      cases run
      exact refilled _ live
  have factory {y : Value} {x : Unit} {u v : World} (live : u.heap.Live d)
      (run : (Draft.setFactory d y).run u = (.ok x, v)) : Refilled d u v := by
    unfold Draft.setFactory at run
    split at run <;> cases run
    exact refilled _ live
  have source {y : Value} {x : Unit} {u v : World} (live : u.heap.Live d)
      (run : (Draft.setSource d y).run u = (.ok x, v)) : Refilled d u v := by
    unfold Draft.setSource at run
    split at run
    · cases run
      exact refilled _ live
    · cases run
  have rest {u : World} {x : Unit} (live : u.heap.Live d) (run : (do
      unless o.factory = .none do Draft.setFactory d o.factory
      o.code.forM (Draft.setCode d) : Quiet Unit).run u = (.ok x, v)) : Refilled d u v := by
    by_cases none : o.factory = .none
    · rw [if_pos none] at run
      exact code live run
    · rw [if_neg none] at run
      obtain ⟨_, t, one, run⟩ := ok_of_bind run
      exact (factory live one).trans (code (factory live one).1 run)
  unfold Draft.fill at run
  by_cases none : o.source = .none
  · rw [if_pos none] at run
    exact rest live run
  · rw [if_neg none] at run
    obtain ⟨_, t, one, run⟩ := ok_of_bind run
    exact (source live one).trans (rest (source live one).1 run)

theorem run_copyOfSequence {x y : Value} (run : (copyOfSequence x).run w = (.ok y, v)) :
    ∃ l : Ref .list, y = .obj .list l ∧ v.heap.Live l := by
  unfold copyOfSequence at run
  cases run
  exact ⟨_, rfl, Heap.live_fresh_alloc _ _⟩

theorem run_copyIfAny {x y : Value} (run : (copyIfAny x).run w = (.ok y, v)) :
    ∃ l : Ref .list, y = .obj .list l := by
  unfold copyIfAny at run
  obtain ⟨some, u, -, run⟩ := ok_of_bind run
  split at run
  · obtain ⟨xs, t, -, run⟩ := ok_of_bind run
    cases run
    exact ⟨_, rfl⟩
  · cases run
    exact ⟨_, rfl⟩

theorem run_formatOf {x y : Value} (run : (formatOf x).run w = (.ok y, v)) :
    ∃ f, y = .format f := by
  unfold formatOf at run
  split at run
  · cases run
    exact ⟨_, rfl⟩
  · split at run
    · cases run
      exact ⟨_, rfl⟩
    · obtain ⟨_, _, -, run⟩ := ok_of_bind run
      cases run
  · obtain ⟨_, _, -, run⟩ := ok_of_bind run
    cases run

theorem live_quiet {x : Quiet α} {y : Except Fault α} {k : Kind} {r : Ref k}
    (run : x.run w = (y, v)) (live : w.heap.Live r) : v.heap.Live r := by
  have near := x.near w
  rw [run] at near
  exact near.still.evolves.live live

theorem created {name : Value} {o : Draft.Options} {d : Ref .draft}
    (run : (Draft.create name o).run w = (.ok d, v)) :
    v.heap.Live d ∧ (v.heap.get d).name = name ∧ v.Pristine d := by
  unfold Draft.create at run
  by_cases proper : name.isName
  case neg =>
    rw [if_neg proper] at run
    cases run
  rw [if_pos proper] at run
  obtain ⟨s, named, some⟩ := isName_iff.mp proper
  obtain ⟨deps, _, copied, run⟩ := ok_of_bind run
  obtain ⟨l, rfl, listed⟩ := run_copyOfSequence copied
  obtain ⟨plugins, _, picked, run⟩ := ok_of_bind run
  obtain ⟨p, rfl⟩ := run_copyIfAny picked
  have listed := live_quiet picked listed
  obtain ⟨format, _, formatted, run⟩ := ok_of_bind run
  obtain ⟨f, rfl⟩ := run_formatOf formatted
  have listed := live_quiet formatted listed
  obtain ⟨attributes, _, dictionary, run⟩ := ok_of_bind run
  have listed := live_quiet dictionary listed
  cases dictionary
  obtain ⟨e, _, new, run⟩ := ok_of_bind run
  have listed := live_quiet new listed
  obtain ⟨_, after, fills, last⟩ := ok_of_bind run
  have listed := live_quiet fills listed
  obtain ⟨live, is⟩ := made new
  obtain ⟨alive, c, whole⟩ := filled live fills
  have same : (.ok e, after) = ((.ok d, v) : Except Fault _ × World) := last
  cases same
  rw [is] at whole
  exact ⟨alive, by rw [whole],
    { name := ⟨s, by rw [whole]; exact named, some⟩
      deps := ⟨l, by rw [whole], listed⟩
      plugins := ⟨p, by rw [whole]⟩
      format := ⟨f, by rw [whole]⟩
      attributes := ⟨_, by rw [whole]⟩ }⟩

theorem free_of_check {s : String} {deps factory : Value} {x : Unit} (stands : S.Stands w)
    (run : (Loader.checkRegistration S.loader (.str s) deps factory).run w = (.ok x, v)) :
    S.record? w (.text s) = none ∧ ¬ S.Cached w s := by
  unfold Loader.checkRegistration at run
  obtain ⟨m, _, manager, run⟩ := ok_of_bind run
  rw [run_managerOf stands] at manager
  cases manager
  obtain ⟨known, u, asked, run⟩ := ok_of_bind run
  cases known with
  | true =>
    obtain ⟨_, _, -, run⟩ := ok_of_bind run
    cases run
  | false =>
    unfold orM at asked
    obtain ⟨cached, _, looked, asked⟩ := ok_of_bind asked
    rw [run_managerHas] at looked
    cases looked
    cases found : ((w.heap.get S.manager).modules.get? s).isSome with
    | true =>
      rw [found] at asked
      cases asked
    | false =>
      rw [found] at asked
      have held := asked.symm.trans (run_has stands s)
      have free : (w.heap.get S.store).contains (.text s) = false := by
        injection held with held
        injection held with held
        exact held.symm
      constructor
      · simpa [Store.contains, Assoc.contains, record?] using free
      · rw [← cached_iff, found]
        simp

theorem does_register (name deps factory : Value) :
    L.Does (Loader.register S.loader name deps factory) w fun d v =>
      ∃ s, name = .str s ∧ v.heap.Live d ∧ (v.heap.get d).name = name := by
  unfold Loader.register
  refine does_fine fun fine => ?_
  refine does_bind (does_quiet _) fun _ u keeps ⟨near, checked⟩ => ?_
  refine does_bind (does_quiet _) fun d v later ⟨near', run⟩ => ?_
  obtain ⟨live, named, pristine⟩ := created run
  obtain ⟨s, is, -⟩ := pristine.name
  obtain rfl := named.symm.trans is
  have still := near.still.trans near'.still
  have free : S.record? v (.text s) = none ∧ ¬ S.Cached v s := by
    have store : v.heap.get S.store = w.heap.get S.store := still.rests S.store (L.stands fine).store
    have manager : v.heap.get S.manager = w.heap.get S.manager :=
      still.rests S.manager (L.stands fine).manager
    unfold record? Cached
    rw [store, manager]
    exact free_of_check (L.stands fine) checked
  refine does_look (fun _ => rfl) ?_
  refine does_look (a := v.heap.truthy (v.heap.get d).deps)
    (fun _ => by simp [truthy, Quiet.run_map]) ?_
  have registers : S.Registers v s d _ := ⟨free.1, free.2, live, named, pristine, rfl⟩
  refine does_bind (R := fun _ u => u.heap.Live d ∧ (u.heap.get d).name = .str s)
    (does_fine fun fine => ?_) fun _ u _ ⟨live, named⟩ => ?_
  · refine does_ok (run_setItem (L.stands fine) _ s _)
      (fun fine => L.registered _ fine registers) fun _ =>
      ⟨(evolves_restored _ v).live live, ?_⟩
    rw [get_restored _ d (by decide), named]
  · refine does_look (fun _ => rfl) (does_bind (does_quiet _) fun _ x _ ⟨near, _⟩ => ?_)
    have kept : (x.heap.get d).name = (u.heap.get d).name := near.still.rests d live
    exact does_pure fun _ => ⟨s, rfl, near.still.evolves.live live, kept.trans named⟩

theorem does_managerRegister (name deps factory : Value) :
    L.Does (Manager.register S.manager name deps factory) w fun _ _ => True := by
  unfold Manager.register
  refine does_fine fun fine => does_look (fun _ => rfl) ?_
  rw [(L.stands fine).serves]
  split
  · exact does_bind (does_quiet _) fun _ _ _ _ =>
      (does_register name _ deps).mono fun _ _ _ _ => trivial
  · exact (does_register name deps factory).mono fun _ _ _ _ => trivial

theorem does_startPending (starts : L.starts) (s : String) :
    L.Does (Loader.startPending S.loader (.str s)) w fun x v => ∃ f t item, x = .obj .future f ∧
      (∃ label, S.record? w (.text s) = some ⟨label, .phase .pending, item⟩) ∧
      (v.heap.get f).activity? = some (.loadDependencies S.loader item) ∧
      S.Loading v s t ∧ S.Settles v t s (.obj .future f) := by
  cases pending : (w.heap.get S.store).holds (.phase .pending) (.text s) with
  | true =>
    obtain ⟨label, item, found⟩ := holds_iff.mp pending
    intro fine
    have stands := L.stands fine
    have later : S.Stands (S.released w s item) := stands.mono (evolves_released s item w)
    unfold Loader.startPending
    rw [run_bind, run_loadPending s item stands found]
    simp only [run_bind, run_track s later, run_pure]
    refine ⟨L.taken false false (.inr starts) fine found, fun x same => ?_⟩
    cases same
    refine ⟨_, _, item, rfl, ⟨label, found⟩, ?_, loading_put s _ later, false, false, ?_⟩
    · have old : (S.released w s item).heap.Live (w.heap.fresh .future) :=
        World.task?_live (w := S.released w s item) (by simp [task?_released])
      rw [get_put, if_neg (Heap.ne_fresh old), get_released, if_pos rfl]
      rfl
    · rw [get_put, if_pos rfl]
      rfl
  | false =>
    unfold Loader.startPending Loader.loadPending
    refine does_bind (R := fun _ _ => False) ?_ fun _ _ _ never => never.elim
    refine does_look (fun fine => run_isIn (L.stands fine) .pending s) ?_
    rw [pending]
    refine does_look (fun fine => run_managerOf (L.stands fine)) ?_
    refine does_look (fun _ => run_managerHas S.manager s w) ?_
    split
    · exact does_bind (does_quiet _) fun _ _ _ _ => does_throw _
    · exact does_bind (does_quiet _) fun _ _ _ _ => does_throw _

/-! ## The state in order -/

theorem Open.foreign {a : Activity} (is : S.Open a) : S.Foreign a := by
  cases a with
  | settle | loadDependencies => exact is.elim
  | _ => trivial

theorem Tidy.loads (tidy : S.Tidy w) {s : String} {t : Ref .future} (loading : S.Loading w s t) :
    w.task? t ≠ none ∧ ∃ work, S.Settles w t s work := by
  obtain ⟨label, found⟩ := loading
  obtain ⟨u, work, is, task, settles⟩ := tidy.inFlight found
  cases is
  exact ⟨task, work, settles⟩

theorem Fetched.waits {s : String} {parent : Value} {f : Ref .future} (tidy : S.Tidy v)
    (fetched : S.Fetched w v s parent f) :
    v.heap.Live f ∧ ((v.heap.get f).status = .waiting → S.Loading v s f) := by
  cases fetched with
  | known _ status live => exact ⟨live, fun waiting => by simp [waiting] at status⟩
  | shared _ after _ | begun _ after _ =>
    exact ⟨World.task?_live (tidy.loads after).1, fun _ => after⟩

theorem Fetched.errand {r s : String} {parent : Value} {f : Ref .future} (tidy : S.Tidy v)
    (fetched : S.Fetched w v s parent f) (same : r = s) :
    S.Errand v (.buildFetched S.loader (.str r) (.obj .future f)) := by
  obtain ⟨live, waits⟩ := fetched.waits tidy
  exact .buildFetched live fun waiting => same ▸ (tidy.loads (waits waiting)).2

def moving (S : Site) : S.Ledger where
  fine := S.Tidy
  keeps := S.Moved
  starts := True
  refl := .refl
  trans := Moved.trans
  sound := Moved.tidy
  quiet tidy near := moves_still near.still tidy
  failure tidy := moves_still (World.still_failure _ _) tidy
  stands := Tidy.stands
  inFlight tidy found := by
    obtain ⟨t, _, is, -⟩ := tidy.inFlight found
    exact ⟨t, is⟩
  resolved x := moves_still (still_resolved _ x)
  reported s := moves_spawned trivial .buildReported
  fetched {w s f} tidy given := by
    refine moves_spawned trivial (.buildFetched ?_ fun waiting => ?_) tidy
    · exact given.elim (fun loading => World.task?_live (tidy.loads loading).1) And.left
    · exact given.elim (fun loading => (tidy.loads loading).2) fun ⟨_, done⟩ => absurd waiting done
  begun {w s c parent} tidy live activity free := by
    refine (launch_fetch tidy.stands (.fetch live activity) (fun r found loading => ?_) true true).moves tidy
    obtain ⟨label, phase, item⟩ := r
    cases loading
    exact absurd (holds_iff.mpr ⟨_, _, found⟩) (Bool.eq_false_iff.mp (free .loading))
  taken markLoaded report _ tidy found := (launch_pending tidy found markLoaded report).moves tidy
  registered {w s d p} label tidy registers := by
    refine moves_recorded (by simp [registers.free]) (fun label => ?_) registers.settled tidy
    cases p with
    | loading => exact absurd rfl registers.settled
    | pending => exact .pending registers.live registers.name
    | loaded => exact .loaded
  grouped tidy turns current spares wired _ := moves_turns turns current spares wired tidy

abbrev Does (S : Site) (e : Edit α) (w : World) (Q : α → World → Prop) : Prop := S.moving.Does e w Q

theorem does_tidy {e : Edit α} {Q : α → World → Prop} (does : S.Tidy w → S.Does e w Q) :
    S.Does e w Q := does_fine does

/-! ## The other edits of a loader -/

theorem does_takeUp (s : String) :
    S.Does (Loader.startPending S.loader (.str s)) w fun x v => ∃ f t, x = .obj .future f ∧
      S.Loads v f s ∧ S.Loading v s t ∧ S.Settles v t s (.obj .future f) :=
  does_tidy fun tidy => (does_startPending (L := S.moving) trivial s).mono fun x v moved given => by
    obtain ⟨f, t, item, is, ⟨label, found⟩, activity, loading, settles⟩ := given
    obtain ⟨d, rfl, live, named⟩ := tidy.pending found
    have kept : (v.heap.get d).name = (w.heap.get d).name := moved.evolves.follows d live
    exact ⟨f, t, is, ⟨d, activity, moved.evolves.live live, kept.trans named⟩, loading, settles⟩

theorem does_asFuture {x : Value} (opened : ∀ c : Ref .coroutine, x = .obj .coroutine c →
      w.heap.Live c ∧ S.Open (w.heap.get c).activity) :
    S.Does (asFuture x) w fun _ _ => True := by
  unfold asFuture
  split
  · exact does_pure fun _ => trivial
  · next c =>
    obtain ⟨live, is⟩ := opened c rfl
    refine does_look (fun _ => rfl) ?_
    split
    · exact (does_spawn (L := S.moving)
        (moves_spawned (a := .awaitValue _) trivial (.again live is))).mono fun _ _ _ _ => trivial
    · have still : w.Still (w.set c { w.heap.get c with spent := true }) :=
        (World.Near.ofSet (k := .coroutine) w c { w.heap.get c with spent := true } rfl rfl).still
      refine does_bind (R := fun _ _ => True)
        (does_ok (run_write c _ w) (moves_still still) fun _ => trivial) fun _ _ _ _ => ?_
      exact (does_spawn (L := S.moving) (moves_spawned is.foreign (.opened is))).mono fun _ _ _ _ => trivial
  · exact does_throw _

theorem does_remove {s : String} {label item : Value}
    (found : S.record? w (.text s) = some ⟨label, .phase .loaded, item⟩) :
    S.Does (Loader.remove S.loader (.str s)) w fun x _ => x = item := by
  refine does_tidy fun tidy => does_ok (run_remove tidy.stands s) ?_ fun _ => ?_
  · exact moves_removed fun r same => by
      obtain rfl := Option.some.inj (found.symm.trans same)
      simp
  · unfold Store.item?
    rw [show (w.heap.get S.store).records.get? (.text s) = _ from found]
    rfl

theorem does_cache (module : Value) :
    S.Does (Manager.cache S.manager module) w fun _ v =>
      ∃ r : Ref .module, module = .obj .module r ∧ S.Cached v (w.heap.get r).name := by
  unfold Manager.cache
  split
  · next r =>
    refine does_look (fun _ => rfl) (does_tidy fun tidy => ?_)
    refine does_ok (run_update S.manager _ w) (moves_cached _ r) fun _ => ⟨r, rfl, ?_⟩
    unfold Cached
    rw [World.get_set _ _ _ tidy.stands.manager, if_pos rfl]
    simp
  · exact does_look (fun _ => rfl) (does_throw _)

end Site
end AsyncImport
