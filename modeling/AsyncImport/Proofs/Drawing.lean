import AsyncImport.Proofs.Chart

/-!
# Requests on a chart

What is requested or registered at a loader goes by the plan when it did before: a request claims
nothing new about any name, and a fault about a circle names a circle of the plan.
-/

namespace AsyncImport.Site

open Edit Relation

variable {S : Site} {g : Plan} {u v w : World} {α β : Type}

/-! ## Requests -/

theorem draws_resolved (x : Value) (w : World) : S.Draws g (resolved x) w :=
  draws_ok (run_create _ w) fun stands => sketches_mute stands
    { still := still_resolved w x
      straight := fun _ _ => World.get_alloc_kind _ (by decide)
      plain := fun f dead => by
        rw [World.get_alloc]
        split
        · rfl
        · rw [Heap.get_not_live dead]
          rfl }

theorem draws_spawn (a : Activity) (w : World) : S.Draws g (spawn a) w :=
  draws_ok (run_spawned a w) fun _ => sketches_spawned w a

theorem draws_asFuture (x : Value) (w : World) : S.Draws g (asFuture x) w := by
  unfold asFuture
  split
  · exact draws_pure _ w
  · next c =>
    refine draws_bind (draws_quiet _ w) fun co v run _ => ?_
    cases run
    split
    · exact draws_spawn _ w
    · exact draws_bind (draws_ok (run_write c _ w) fun stands => sketches_mute stands
        (World.Near.ofSet (k := .coroutine) w c { w.heap.get c with spent := true } rfl rfl).mute)
          fun _ u _ _ => draws_spawn _ u
  · exact draws_throw rfl w

theorem draws_setLoading (s : String) (item : Value) (w : World) :
    S.Draws g (Loader.setItem S.loader .loading (.str s) item) w := fun charted =>
  (draws_ok (run_setItem charted.stands .loading s item) fun stands =>
    sketches_restored stands fun {r label x} found => by
      unfold Store.set at found
      rw [Assoc.get?_insert] at found
      split at found
      · cases found
      · exact .inl found) charted

theorem draws_remove (s : String) (w : World) : S.Draws g (Loader.remove S.loader (.str s)) w :=
  fun charted => (draws_ok (run_remove charted.stands s) fun stands =>
    sketches_restored stands fun {r label x} found => by
      rw [show (Store.remove _ _).records = (w.heap.get S.store).records.erase (.text s) from rfl,
        Assoc.get?_erase] at found
      split at found
      · cases found
      · exact .inl found) charted

theorem draws_track (s : String) (work : Value) (markLoaded report : Bool) (w : World) :
    S.Draws g (Loader.track S.loader (.str s) work markLoaded report) w := by
  unfold Loader.track
  refine draws_bind (draws_spawn _ w) fun t v _ _ => ?_
  exact draws_bind (draws_setLoading s _ v) fun _ u _ _ => draws_pure _ u

theorem draws_loadPending (s : String) (w : World) :
    S.Draws g (Loader.loadPending S.loader (.str s)) w := by
  unfold Loader.loadPending
  refine draws_bind (draws_quiet _ w) fun pending v _ _ => ?_
  split
  · refine draws_bind (draws_remove s v) fun d u _ _ => ?_
    exact draws_bind (draws_spawn _ u) fun _ u _ _ => draws_pure _ u
  · refine draws_bind (draws_quiet _ v) fun m u _ _ => ?_
    refine draws_bind (draws_quiet _ u) fun known u _ _ => ?_
    split <;> exact draws_bind (draws_quiet _ u) fun text u _ _ => draws_throw rfl u

theorem draws_startPending (s : String) (w : World) :
    S.Draws g (Loader.startPending S.loader (.str s)) w := by
  unfold Loader.startPending
  refine draws_bind (draws_loadPending s w) fun f v _ _ => ?_
  exact draws_bind (draws_track s f _ _ v) fun _ u _ _ => draws_pure _ u

theorem draws_dropLoading (s : String) (w : World) :
    S.Draws g (Loader.dropLoading S.loader (.str s)) w := by
  unfold Loader.dropLoading
  refine draws_bind (draws_quiet _ w) fun item v _ _ => ?_
  refine draws_bind (draws_ok (v := v) rfl fun _ => .refl v) fun x u _ _ => ?_
  split
  · split
    · unfold discard
      exact draws_bind (draws_remove s u) fun _ u _ _ => draws_pure _ u
    · exact draws_pure _ u
  · exact draws_pure _ u

theorem draws_look {x : Edit α} {f : α → Edit β} {a : α} (run : S.Stands w → x w = (.ok a, w))
    (next : S.Draws g (f a) w) : S.Draws g (x >>= f) w := fun charted => by
  have next := next charted
  rw [run_bind, run charted.stands]
  exact next

/-- Names that are waited for one after another depend on each other. -/
theorem texts_of_chain (charted : S.Charted g w) {path : List Key} {s : String}
    (head : path.head? = some (.text s)) (chain : path.IsChain (S.waits w).Edge) :
    ∃ names : List String, path = names.map Key.text ∧ names.head? = some s ∧
      names.IsChain g.Needs := by
  induction path generalizing s with
  | nil => cases head
  | cons k path ih =>
    obtain rfl : k = .text s := Option.some.inj head
    cases path with
    | nil => exact ⟨[s], rfl, rfl, .singleton _⟩
    | cons j path =>
      obtain ⟨edge, chain⟩ := List.isChain_cons_cons.mp chain
      obtain ⟨_, d, from_, rfl, needs⟩ := charted.edges edge
      cases from_
      obtain ⟨names, same, first, follows⟩ := ih rfl chain
      cases names with
      | nil => cases first
      | cons n names =>
        obtain rfl : n = d := Option.some.inj first
        exact ⟨s :: n :: names, by rw [same]; rfl, rfl, List.isChain_cons_cons.mpr ⟨needs, follows⟩⟩

/-- A circle that is refused is one of the plan. -/
theorem draws_checkCycle {s p : String} (edge : .text s ∈ S.next w p) :
    S.Draws g (Loader.checkCycle S.loader (.str s) (.str p)) w := fun charted => by
  refine ⟨by rw [checkCycle_world]; exact .refl w, fun f failed => ?_⟩
  unfold Loader.checkCycle at failed
  cases found : (w.heap.get S.loader).waits.path? (.text s) (.text p) with
  | none =>
    simp only [run_bind, found, run_lift, run_key_str, Quiet.run_read] at failed
    cases failed
  | some path =>
    obtain ⟨head, last, chain⟩ := Waits.path_of_path?_some found
    obtain ⟨names, rfl, first, follows⟩ := texts_of_chain charted head chain
    have needs : g.Needs p s := by
      obtain ⟨_, _, from_, to_, needs⟩ := charted.edges edge
      cases from_
      cases to_
      exact needs
    simp only [run_bind, found, run_lift, run_key_str, Quiet.run_read] at failed
    split at failed
    · cases failed
      rintro c same
      cases same
      have circle : g.Circle (p :: names) := by
        cases names with
        | nil => cases first
        | cons n names =>
          obtain rfl : n = s := Option.some.inj first
          refine ⟨by simp, ?_, List.isChain_cons_cons.mpr ⟨needs, follows⟩⟩
          rw [List.getLast?_map] at last
          obtain ⟨q, is, same⟩ := Option.map_eq_some_iff.mp last
          rw [List.getLast?_cons_cons, is]
          cases same
          rfl
      simpa [List.filterMap_map] using circle
    · cases failed
      exact fine_of_straight rfl

def Announced (S : Site) (w : World) (name parent : Value) : Prop :=
  parent = .none ∨ ∃ d p, parent = .obj .draft d ∧ (w.heap.get d).name = .str p ∧
    ∀ s, name = .str s → .text s ∈ S.next w p

theorem draws_fetch {name parent : Value} (announced : S.Announced w name parent) :
    S.Draws g (Loader.fetch S.loader name parent) w := by
  unfold Loader.fetch
  by_cases proper : name.isName
  case neg =>
    refine draws_bind (draws_quiet _ w) fun _ _ run _ => ?_
    rw [run_lift, run_checkName, if_neg proper] at run
    cases run
  refine draws_look (a := ()) (fun _ => by simp [run_checkName, proper]) ?_
  obtain ⟨s, rfl, -⟩ := isName_iff.mp proper
  refine draws_look (fun stands => run_managerOf stands) ?_
  let found := ((w.heap.get S.manager).modules.get? s).isSome ||
    (w.heap.get S.store).holds (.phase .loaded) (.text s)
  refine draws_look (a := found) (fun stands => ?_) ?_
  · simp only [run_orM, run_lift, run_managerHas, found]
    cases ((w.heap.get S.manager).modules.get? s).isSome
    · exact run_isIn stands .loaded s
    · rfl
  split
  · refine draws_bind (draws_quiet _ w) fun d v _ _ => ?_
    exact draws_bind (draws_resolved d v) fun f v _ _ => draws_pure _ v
  refine draws_look (fun stands => run_itemIn stands .loading s) ?_
  split
  · split
    · exact draws_pure _ w
    · next some =>
      obtain ⟨d, p, rfl, named, edges⟩ := announced.resolve_left some
      refine draws_look (a := .str p) (fun _ => by rw [← named]; rfl) ?_
      exact draws_bind (draws_checkCycle (edges s rfl)) fun _ v _ _ => draws_pure _ v
  · refine draws_bind (draws_quiet _ w) fun pending v _ _ => ?_
    split
    · exact draws_bind (draws_loadPending s v) fun f v _ _ => draws_track s f _ _ v
    have start (q : Value) (u : World) : S.Draws g (do
        debug "loader.fetch" [("module", .str s), ("parent", q)]
        Loader.track S.loader (.str s)
          (← suspended (.fetchDraft S.loader (.str s) parent)) true true : Edit Value) u := by
      refine draws_bind (draws_quiet _ u) fun _ u _ _ => ?_
      exact draws_bind (draws_quiet _ u) fun c u _ _ => draws_track s c _ _ u
    refine draws_bind (draws_quiet _ v) fun truth v _ _ => ?_
    split
    · exact draws_bind (draws_quiet _ v) fun q v _ _ => start q v
    · exact draws_bind (draws_pure _ v) fun q v _ _ => start q v

theorem draws_load (name : Value) (w : World) : S.Draws g (Loader.load S.loader name .none) w := by
  unfold Loader.load
  refine draws_bind (draws_quiet _ w) fun _ v run _ => ?_
  obtain ⟨s, rfl, -⟩ : ∃ s, name = .str s ∧ s.isEmpty = false := by
    by_cases proper : name.isName
    · exact isName_iff.mp proper
    · rw [run_lift, run_checkName, if_neg proper] at run
      cases run
  refine draws_bind (draws_quiet _ v) fun m v _ _ => ?_
  refine draws_bind (draws_quiet _ v) fun found v _ _ => ?_
  split
  · exact draws_bind (draws_resolved _ v) fun f v _ _ => draws_pure _ v
  have known : S.Draws g (Loader.isIn S.loader .loaded (.str s) <||>
      Loader.isIn S.loader .pending (.str s) : Edit Bool) v := by
    unfold orM
    refine draws_bind (draws_quiet _ v) fun loaded u _ _ => ?_
    split
    · exact draws_pure _ u
    · exact draws_quiet _ u
  refine draws_bind known fun there v _ _ => ?_
  split
  · exact draws_bind (draws_spawn _ v) fun f v _ _ => draws_pure _ v
  · refine draws_bind (draws_fetch (.inl rfl)) fun f v _ _ => ?_
    exact draws_bind (draws_spawn _ v) fun f v _ _ => draws_pure _ v

/-! ## Registrations -/

theorem draws_setLoaded {s : String} {item : Value} (grounded : g.Grounded s)
    (vouched : Vouched g w item) :
    S.Draws g (Loader.setItem S.loader .loaded (.str s) item) w := fun charted =>
  (draws_ok (run_setItem charted.stands .loaded s item) fun stands =>
    sketches_restored stands fun {r label x} found => by
      unfold Store.set at found
      rw [Assoc.get?_insert] at found
      split at found
      · next same =>
        cases same
        cases found
        exact .inr ⟨grounded, vouched⟩
      · exact .inl found) charted

theorem draws_setPending (s : String) (item : Value) (w : World) :
    S.Draws g (Loader.setItem S.loader .pending (.str s) item) w := fun charted =>
  (draws_ok (run_setItem charted.stands .pending s item) fun stands =>
    sketches_restored stands fun {r label x} found => by
      unfold Store.set at found
      rw [Assoc.get?_insert] at found
      split at found
      · cases found
      · exact .inl found) charted

theorem check_world {s : String} {deps factory : Value} {x : Unit} (stands : S.Stands w)
    (run : (Loader.checkRegistration S.loader (.str s) deps factory).run w = (.ok x, v)) : v = w := by
  unfold Loader.checkRegistration at run
  obtain ⟨m, u, manager, run⟩ := ok_of_bind run
  rw [run_managerOf stands] at manager
  cases manager
  obtain ⟨known, u, asked, run⟩ := ok_of_bind run
  have same : u = w := by
    unfold orM at asked
    obtain ⟨cached, y, looked, asked⟩ := ok_of_bind asked
    rw [run_managerHas] at looked
    cases looked
    split at asked
    · cases asked
      rfl
    · rw [run_has stands] at asked
      cases asked
      rfl
  subst same
  cases known with
  | true =>
    obtain ⟨_, _, -, run⟩ := ok_of_bind run
    cases run
  | false =>
    obtain ⟨h, y, looked, run⟩ := ok_of_bind run
    cases looked
    dsimp only at run
    split at run
    · split at run
      · split at run
        · cases run
          rfl
        · obtain ⟨_, _, -, run⟩ := ok_of_bind run
          cases run
      · obtain ⟨_, _, -, run⟩ := ok_of_bind run
        cases run
    · obtain ⟨_, _, -, run⟩ := ok_of_bind run
      cases run

theorem deps_filled {deps factory : Value} {d : Ref .draft} {x : Unit}
    (run : (Draft.fill d { deps := deps, factory := factory }).run w = (.ok x, v)) :
    (v.heap.get d).deps = (w.heap.get d).deps ∧
      ∀ r : Ref .list, v.heap.get r = w.heap.get r := by
  unfold Draft.fill at run
  rw [if_pos rfl] at run
  split at run
  · cases run
    exact ⟨rfl, fun _ => rfl⟩
  · unfold Draft.setFactory at run
    split at run
    · obtain ⟨_, u, altered, run⟩ := ok_of_bind run
      cases run
      have is : v = w.set d { w.heap.get d with content := .factory factory } := by
        cases altered
        rfl
      subst is
      refine ⟨?_, fun r => World.get_set_kind _ (by decide)⟩
      by_cases live : w.heap.Live d
      · rw [World.get_set d d _ live, if_pos rfl]
      · have same : (w.set d { w.heap.get d with content := .factory factory }).heap.get d =
          w.heap.get d := Heap.set_not_live _ live
        rw [same]
    · cases run

theorem created_deps {name deps factory : Value} {xs : List Value} {d : Ref .draft}
    (given : w.heap.sequence? deps = some xs)
    (run : (Draft.create name { deps := deps, factory := factory }).run w = (.ok d, v)) :
    ∃ r : Ref .list, (v.heap.get d).deps = .obj .list r ∧ v.heap.get r = xs := by
  unfold Draft.create at run
  by_cases proper : name.isName
  case neg =>
    rw [if_neg proper] at run
    cases run
  rw [if_pos proper] at run
  obtain ⟨copy, u₁, copied, run⟩ := ok_of_bind run
  obtain ⟨plugins, u₂, listed, run⟩ := ok_of_bind run
  obtain ⟨format, u₃, formatted, run⟩ := ok_of_bind run
  obtain ⟨attributes, u₄, noted, run⟩ := ok_of_bind run
  obtain ⟨e, u₅, new, run⟩ := ok_of_bind run
  obtain ⟨_, u₆, filled, last⟩ := ok_of_bind run
  have same : (.ok e, u₆) = ((.ok d, v) : Except Fault _ × World) := last
  cases same
  obtain ⟨kept, lists⟩ := deps_filled filled
  obtain ⟨rfl, rfl⟩ : copy = .obj .list (w.heap.fresh .list) ∧
      u₁ = w.alloc .list ((w.heap.sequence? deps).getD []) := by
    cases copied
    exact ⟨rfl, rfl⟩
  obtain rfl : u₂ = World.alloc _ .list [] := by
    cases listed
    rfl
  obtain rfl : u₃ = _ := by
    cases formatted
    rfl
  obtain rfl : u₄ = World.alloc _ .dict _ := by
    cases noted
    rfl
  obtain ⟨-, is⟩ := made new
  obtain rfl : u₅ = World.alloc _ .draft _ := by
    cases new
    rfl
  refine ⟨w.heap.fresh .list, by rw [kept, is], ?_⟩
  rw [lists, World.get_alloc_kind _ (by decide), World.get_alloc_kind _ (by decide)]
  have first : (w.alloc .list ((w.heap.sequence? deps).getD [])).heap.Live (w.heap.fresh .list) :=
    Heap.live_fresh_alloc _ _
  exact (Heap.get_alloc_live _ _ first).trans ((Heap.get_alloc_fresh _ _).trans (by rw [given]; rfl))

theorem draws_register {name deps factory : Value}
    (listed : ∀ s, name = .str s → w.heap.sequence? deps = some ((g s).map .str)) :
    S.Draws g (Loader.register S.loader name deps factory) w := by
  unfold Loader.register
  intro charted
  refine draws_bind (draws_quiet _ w) (fun _ u checked _ =>
    draws_bind (draws_quiet _ u) fun d v run _ => ?_) charted
  obtain ⟨live, named, pristine⟩ := created run
  obtain ⟨s, is, -⟩ := pristine.name
  obtain rfl := named.symm.trans is
  obtain rfl := check_world charted.stands checked
  obtain ⟨r, is, items⟩ := created_deps (listed s rfl) run
  refine draws_bind (draws_quiet _ v) fun c _ read _ => ?_
  cases read
  refine draws_bind (draws_quiet _ v) fun some _ asked _ => ?_
  cases asked
  have last (u : World) : S.Draws g (do
      debug "loader.register" [("module", .str s), ("deps", (← Edit.read d).deps)]
      return d : Edit (Ref .draft)) u :=
    draws_bind (draws_quiet _ u) fun _ u _ _ =>
      draws_bind (draws_quiet _ u) fun _ u _ _ => draws_pure _ u
  split
  · exact draws_bind (draws_setPending s _ v) fun _ u _ _ => last u
  · next none =>
    have empty : g s = [] := by
      rw [is] at none
      have length : v.heap.length? (.obj .list r) = some (v.heap.get r).length := rfl
      unfold Heap.truthy at none
      rw [length, items] at none
      simpa using none
    have grounded : g.Grounded s := Plan.grounded_of_all (by simp [empty])
    exact draws_bind (draws_setLoaded grounded ⟨d, rfl, s, named, grounded⟩) fun _ u _ _ => last u

theorem draws_declare {name deps factory : Value}
    (listed : ∀ s, name = .str s → if factory = .none ∧ deps.callable then g s = []
      else w.heap.sequence? deps = some ((g s).map .str)) :
    S.Draws g (Manager.register S.manager name deps factory) w := by
  unfold Manager.register
  refine draws_bind (draws_quiet _ w) fun m u run _ charted => ?_
  cases run
  rw [charted.stands.serves]
  revert charted
  split
  · next bare =>
    refine draws_bind (draws_quiet _ w) fun x v run _ => draws_register fun s is => ?_
    cases run
    have given := listed s is
    rw [if_pos (by simpa using bare)] at given
    rw [given]
    exact congrArg some (Heap.get_alloc_fresh _ _)
  · next listing =>
    refine draws_register fun s is => ?_
    have given := listed s is
    rwa [if_neg (by simpa using listing)] at given

/-! ## Edges and modules -/

theorem sketches_rewired (stands : S.Stands w) {waits : Waits}
    (edges : ∀ {a b}, b ∈ waits.next a →
      b ∈ (S.waits w).next a ∨ ∃ s d, a = .text s ∧ b = .text d ∧ g.Needs s d) :
    S.Sketches g w (S.rewired w waits) where
  evolves := evolves_rewired waits w
  circles {r _} is := .inl (by rwa [get_rewired waits r (by decide)] at is)
  edges edge := edges (by rwa [waits_rewired waits stands] at edge)
  loaded found := .inl (by rwa [record?_rewired] at found)
  cached known := .inl ((cached_rewired waits).mp known)
  done {t _ _} activity done := .inl (by
    rw [get_rewired waits t (by decide)] at activity done
    exact ⟨activity, done⟩)
  tallied tallied := tallied.mono (.ofGet (fun _ => (evolves_rewired waits w).live) fun f =>
    get_rewired waits f (by decide))

theorem draws_stopWaiting (s : String) (w : World) :
    S.Draws g (Loader.stopWaiting S.loader (.str s)) w :=
  draws_ok (run_stopWaiting s w) fun stands => sketches_rewired stands fun {a b} edge => by
    rw [Waits.next_remove] at edge
    split at edge
    · cases edge
    · exact .inl edge

theorem starts_waiting {s : String} {deps : Value} (stands : S.Stands w)
    (listed : w.heap.items? deps = some ((g s).map .str)) :
    ∃ waits, Loader.startWaiting S.loader (.str s) deps w = (.ok (), S.rewired w waits) ∧
      S.Sketches g w (S.rewired w waits) ∧ ∀ d ∈ g s, .text d ∈ S.next (S.rewired w waits) s := by
  obtain ⟨o, waits, run, others, fault, edges⟩ := run_startWaiting (s := s) deps stands
    fun xs known x mem => by
      obtain rfl := Option.some.inj (listed.symm.trans known)
      obtain ⟨d, -, rfl⟩ := List.mem_map.mp mem
      exact fun none => by cases none
  cases o with
  | error f => simp [listed] at fault
  | ok x =>
    obtain ⟨xs, known, edges⟩ := edges rfl
    obtain rfl := Option.some.inj (listed.symm.trans known)
    have next (j : Key) : j ∈ waits.next (.text s) ↔ j ∈ S.next w s ∨ ∃ d ∈ g s, j = .text d := by
      rw [edges]
      refine or_congr_right ⟨fun ⟨x, mem, key⟩ => ?_, fun ⟨d, mem, is⟩ => ?_⟩
      · obtain ⟨d, among, rfl⟩ := List.mem_map.mp mem
        exact ⟨d, among, (Option.some.inj key).symm⟩
      · exact ⟨.str d, List.mem_map_of_mem mem, by rw [is]; rfl⟩
    refine ⟨waits, run, sketches_rewired stands fun {a b} edge => ?_, fun d mem => ?_⟩
    · by_cases same : a = .text s
      · subst same
        exact ((next b).mp edge).imp_right fun ⟨d, mem, is⟩ => ⟨s, d, rfl, is, mem⟩
      · exact .inl (others a same ▸ edge)
    · unfold Site.next
      rw [waits_rewired waits stands]
      exact (next _).mpr (.inr ⟨d, mem, rfl⟩)

theorem draws_cached {r : Ref .module} (grounded : g.Grounded (w.heap.get r).name) :
    S.Draws g (Manager.cache S.manager (.obj .module r)) w :=
  draws_ok (v := S.cached w (w.heap.get r).name r) rfl fun stands =>
    { evolves := evolves_cached w _ r
      circles := fun {r names} is => .inl (by rwa [get_cached r (by decide)] at is)
      edges := fun {a b} edge => .inl (by
        unfold Site.waits at edge ⊢
        rwa [get_cached S.loader (by decide)] at edge)
      loaded := fun {n label item} found => .inl (by
        unfold record? at found
        rwa [get_cached S.store (by decide)] at found)
      cached := fun {n} known => by
        by_cases same : n = (w.heap.get r).name
        · exact .inr (same ▸ grounded)
        · refine .inl fun none => known ?_
          unfold cached
          rw [World.get_set _ _ _ stands.manager, if_pos rfl, Assoc.get?_insert, if_neg same]
          exact none
      done := fun {t a x} activity done => .inl (by
        rw [get_cached t (by decide)] at activity done
        exact ⟨activity, done⟩)
      tallied := fun tallied => tallied.mono (.ofGet (fun _ => (evolves_cached w _ r).live)
        fun f => get_cached f (by decide)) }

theorem draws_uncached {module : Value} (none : ∀ r, module ≠ .obj .module r) (w : World) :
    S.Draws g (Manager.cache S.manager module) w := by
  unfold Manager.cache
  split
  · next r => exact absurd rfl (none r)
  · exact draws_bind (draws_quiet _ w) fun h v _ _ => draws_throw rfl v

end AsyncImport.Site
