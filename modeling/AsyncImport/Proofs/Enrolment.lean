import AsyncImport.Proofs.Housing

/-!
# All or nothing

Whatever a host adds to a registry, to a plugin or to a set of patterns is read in full before the first
of it is stored, and what was read can be stored: hence it is added as a whole, or the world stays as it
was. `Reached` are the worlds in which registries and plugins have come about as hosts make them.
-/

namespace AsyncImport

open Edit

/-! ## Registries and plugins -/

variable {w : World} {p : Ref .plugin} {r : Ref .registry}

namespace Edit

theorem succeeds_set_plugin {c : Plugin} (housed : w.heap.Housed) (live : w.heap.Live p)
    (same : c.registry = (w.heap.get p).registry) : Succeeds (write p c) w fun _ _ => True := by
  refine ⟨(), w.set p c, rfl, ⟨⟨rfl, rfl, rfl⟩, fun _ l => World.live_set.mpr l,
    fun _ l => World.live_set.mpr l⟩, ?_, trivial⟩
  refine housed.congr rfl (fun q => World.live_set) (fun q => ?_)
    (housed.hashable.congr ⟨rfl, rfl, rfl⟩)
  rw [World.get_set p q c live]
  split
  · next e => rw [e, same]
  · rfl

theorem succeeds_update_plugin {f : Plugin → Plugin} (housed : w.heap.Housed) (live : w.heap.Live p)
    (same : (f (w.heap.get p)).registry = (w.heap.get p).registry) :
    Succeeds (update p f) w fun _ _ => True := succeeds_set_plugin housed live same

theorem succeeds_fanout {f : Ref .fanout} {g : Fanout → Fanout} (housed : w.heap.Housed) :
    Succeeds (update f g) w fun _ _ => True :=
  ⟨(), _, rfl, ⟨⟨rfl, rfl, rfl⟩, fun _ l => World.live_set.mpr l, fun _ l => World.live_set.mpr l⟩,
    housed.same rfl rfl (housed.hashable.congr ⟨rfl, rfl, rfl⟩), trivial⟩

theorem succeeds_matcher {m : Ref .matcher} {g : Matcher → Matcher} (housed : w.heap.Housed) :
    Succeeds (update m g) w fun _ _ => True :=
  ⟨(), _, rfl, ⟨⟨rfl, rfl, rfl⟩, fun _ l => World.live_set.mpr l, fun _ l => World.live_set.mpr l⟩,
    housed.same rfl rfl (housed.hashable.congr ⟨rfl, rfl, rfl⟩), trivial⟩

theorem succeeds_debug {event : String} {fields : List (String × Value)} (housed : w.heap.Housed) :
    Succeeds (liftM (debug event fields) : Edit Unit) w fun _ v => v.heap = w.heap :=
  ⟨(), _, rfl, .refl _, housed, rfl⟩

theorem reads_read {k : Kind} (r : Ref k) :
    (liftM (read r) : Edit (Cell k)).Reads fun h => some (h.get r) := fun _ => .inl ⟨_, rfl, rfl⟩

theorem reads_truthy (v : Value) : (liftM (truthy v) : Edit Bool).Reads fun h => some (h.truthy v) :=
  fun _ => .inl ⟨_, rfl, rfl⟩

theorem reads_items (v : Value) : (liftM (items v) : Edit (List Value)).Reads fun h => h.items? v := by
  intro w
  cases known : w.heap.items? v with
  | none => exact .inr ⟨known, _, by simp [items, run_bind, known]; rfl⟩
  | some vs => exact .inl ⟨vs, known, by simp [items, run_bind, known]⟩

theorem reads_key (v : Value) : (liftM (key v) : Edit Key).Reads fun h => h.key? v := by
  intro w
  cases known : w.heap.key? v with
  | none => exact .inr ⟨known, _, by simp [key, run_bind, known]; rfl⟩
  | some k => exact .inl ⟨k, known, by simp [key, run_bind, known]⟩

end Edit

namespace Plugin

theorem registry_addHandlers (p : Plugin) (k : Hook) (hs : List Handler) :
    (p.addHandlers k hs).registry = p.registry := by
  unfold addHandlers
  dsimp only
  split <;> rfl

theorem succeeds_addParsed (housed : w.heap.Housed) (live : w.heap.Live p) (k : Hook)
    (hs : List Handler) : Succeeds (addParsed p k hs) w fun _ _ => True := by
  unfold addParsed
  refine succeeds_found (reads_read p) rfl ?_
  dsimp only
  split
  · exact succeeds_pure housed trivial
  · refine succeeds_bind (succeeds_set_plugin housed live (registry_addHandlers _ _ _))
      fun _ v beside housed' _ => ?_
    split
    · rcases housed.home p live with alone | ⟨r, home, known⟩
      · rw [alone]
        exact (succeeds_debug housed').mono fun _ _ _ => trivial
      · rw [home]
        obtain ⟨f, serves⟩ := housed'.hooks r (beside.registries r known) k
        refine succeeds_found (reads_read r) rfl ?_
        rw [serves]
        exact succeeds_bind (succeeds_fanout housed') fun _ u _ housed'' _ =>
          (succeeds_debug housed'').mono fun _ _ _ => trivial
    · exact (succeeds_debug housed').mono fun _ _ _ => trivial

def comparison? (h : Heap) (p : Ref .plugin) : Option Value :=
  match (h.get p).registry with
  | .none => some (.library .globMatch)
  | .obj .registry r => match (h.get r).compare with
    | .none => some (.library .globMatch)
    | v => some v
  | _ => none

theorem reads_comparison (p : Ref .plugin) : (comparison p).Reads fun h => comparison? h p := by
  intro w
  unfold comparison comparison?
  simp only [run_bind, run_lift, Quiet.run_read]
  generalize (w.heap.get p).registry = home
  cases home with
  | none => exact .inl ⟨_, rfl, rfl⟩
  | obj k r =>
    cases k with
    | registry =>
      dsimp only
      simp only [run_bind, run_lift, Quiet.run_read]
      generalize (w.heap.get r).compare = c
      cases c <;> exact .inl ⟨_, rfl, rfl⟩
    | _ => exact .inr ⟨rfl, _, rfl⟩
  | _ => exact .inr ⟨rfl, _, rfl⟩

theorem comparison_of_home (home : (w.heap.get p).registry = .none ∨
    ∃ r, (w.heap.get p).registry = .obj .registry r ∧ w.heap.Live r) :
    ∃ c, comparison? w.heap p = some c := by
  unfold comparison?
  rcases home with alone | ⟨r, home, -⟩
  · rw [alone]
    exact ⟨_, rfl⟩
  · rw [home]
    dsimp only
    split <;> exact ⟨_, rfl⟩

theorem succeeds_setMatcher {rule : Value} (housed : w.heap.Housed) (live : w.heap.Live p)
    (storable : (w.heap.key? rule).isSome) (m : Matcher) :
    Succeeds (setMatcher p rule m) w fun _ _ => True := by
  obtain ⟨k, known⟩ := Option.isSome_iff_exists.mp storable
  exact succeeds_found (reads_key rule) known (succeeds_update_plugin housed live rfl)

theorem succeeds_rule {rule : Value × List String} (housed : w.heap.Housed) (live : w.heap.Live p)
    (storable : (w.heap.key? rule.1).isSome) :
    Succeeds (do
      let compare ← comparison p
      setMatcher p rule.1 (({ compare := compare } : Matcher).add rule.2)) w fun _ _ => True := by
  obtain ⟨c, known⟩ := comparison_of_home (housed.home p live)
  exact succeeds_found (reads_comparison p) known (succeeds_setMatcher housed live storable _)

theorem whole_addMatchingRules (housed : w.heap.Housed) (live : w.heap.Live p)
    (rule patterns : Value) : Whole (addMatchingRules p rule patterns) w fun _ _ => True := by
  refine whole_reads (reads_comparison p) fun c _ => ?_
  refine whole_reads (reads_map _ (reads_patterns patterns)) fun m _ => ?_
  exact whole_reads (reads_key rule) fun k _ => (succeeds_update_plugin housed live rfl).whole

theorem whole_addHandlersFor (housed : w.heap.Housed) (live : w.heap.Live p)
    (hook handlers : Value) : Whole (addHandlersFor p hook handlers) w fun _ _ => True := by
  refine whole_reads (reads_hook hook) fun k _ => ?_
  refine whole_reads (Handler.reads_handlers handlers) fun hs _ => ?_
  exact (succeeds_addParsed housed live k hs).whole

theorem whole_create {registry : Value} (housed : w.heap.Housed) (name : Value)
    (home : registry = .none ∨ ∃ r, registry = .obj .registry r ∧ w.heap.Live r) :
    Whole (create name registry) w fun p v => v.heap.Live p ∧ (v.heap.get p).registry = registry := by
  by_cases proper : name = .none ∨ name.isName
  · refine .inr ⟨_, w.alloc .plugin { name := name, registry := registry },
      by simp [create, proper], ⟨⟨rfl, rfl, rfl⟩, fun _ l => l, fun _ l =>
        World.live_alloc.mpr (.inl l)⟩, housed.alloc_plugin home, World.live_alloc.mpr (.inr rfl), ?_⟩
    rw [World.get_alloc, if_pos rfl]
  · unfold create
    rw [if_neg (by simpa using proper)]
    exact whole_reads (reads_shown name) fun s _ => .inl ⟨_, rfl⟩

end Plugin

namespace Registry

theorem reads_find (r : Ref .registry) (name : Value) : (find r name).Reads fun h =>
    (h.key? name).bind fun _ => some (name.str?.bind (h.get r).named.get?) :=
  reads_bind (reads_key name) fun _ => reads_map _ (reads_read r)

theorem succeeds_addPlugin (housed : w.heap.Housed) (live : w.heap.Live r) (alive : w.heap.Live p)
    (home : (w.heap.get p).registry = .obj .registry r) (name : Option String) :
    Succeeds (update r fun c => c.addPlugin name p) w fun _ v =>
      ∀ q : Ref .plugin, v.heap.get q = w.heap.get q := by
  refine ⟨(), _, rfl, ⟨⟨rfl, rfl, rfl⟩, fun _ l => World.live_set.mpr l,
    fun _ l => World.live_set.mpr l⟩, housed.set_registry live rfl fun s q found => ?_, fun _ => rfl⟩
  cases name with
  | none => exact housed.named r live s q found
  | some n =>
    have found : ((w.heap.get r).named.insert n p).get? s = some q := found
    rw [Assoc.get?_insert] at found
    split at found
    · cases found
      exact ⟨alive, home⟩
    · exact housed.named r live s q found

theorem whole_createPlugin (housed : w.heap.Housed) (live : w.heap.Live r) (name : Value) :
    Whole (createPlugin r name) w fun p v =>
      v.heap.Live p ∧ (v.heap.get p).registry = .obj .registry r := by
  have made : Whole (do
      let p ← Plugin.create name (.obj .registry r)
      update r fun c => c.addPlugin name.str? p
      debug "plugin.created" [("plugin", name)]
      return p) w fun p v => v.heap.Live p ∧ (v.heap.get p).registry = .obj .registry r := by
    refine whole_bind (Plugin.whole_create housed name (.inr ⟨r, rfl, live⟩))
      fun p v beside housed' ⟨alive, home⟩ => ?_
    refine succeeds_bind (succeeds_addPlugin housed' (beside.registries r live) alive home name.str?)
      fun _ u later housed'' same => ?_
    refine succeeds_bind (succeeds_debug housed'') fun _ t _ housed''' kept => succeeds_pure housed''' ?_
    rw [kept, same]
    exact ⟨later.plugins p alive, home⟩
  unfold createPlugin
  split
  · exact made
  · refine whole_reads (reads_find r name) fun known found => ?_
    cases known with
    | none => exact made
    | some p =>
      obtain ⟨k, -, named⟩ := Option.bind_eq_some_iff.mp found
      obtain ⟨s, -, named⟩ := Option.bind_eq_some_iff.mp (Option.some.inj named)
      exact (succeeds_pure housed (housed.named r live s p named)).whole

theorem succeeds_fill {d : Definition} (housed : w.heap.Housed) (live : w.heap.Live p)
    (storable : d.Storable w.heap) :
    Succeeds (do
      d.rules.forM fun rule => do
        let compare ← Plugin.comparison p
        Plugin.setMatcher p rule.1 (({ compare := compare } : Matcher).add rule.2)
      d.handlers.entries.forM fun e => Plugin.addParsed p e.1 e.2
      return p) w fun _ _ => True := by
  refine succeeds_bind (succeeds_forM housed fun rule mem v beside housed' => ?_) fun _ v beside housed' _ => ?_
  · refine Plugin.succeeds_rule housed' (beside.plugins p live) ?_
    rw [beside.data.key?_eq]
    exact storable rule mem
  · refine succeeds_bind (succeeds_forM housed' fun e _ u later housed'' => ?_) fun _ u _ housed'' _ =>
      succeeds_pure housed'' trivial
    exact Plugin.succeeds_addParsed housed'' (later.plugins p (beside.plugins p live)) e.1 e.2

theorem whole_apply {d : Definition} (housed : w.heap.Housed) (live : w.heap.Live r)
    (storable : d.Storable w.heap) (name : Value) :
    Whole (apply r name d) w fun _ _ => True :=
  whole_bind (whole_createPlugin housed live name) fun _ _ beside housed' ⟨alive, _⟩ =>
    succeeds_fill housed' alive (storable.congr beside.data)

theorem succeeds_apply {d : Definition} (housed : w.heap.Housed) (live : w.heap.Live r)
    (storable : d.Storable w.heap) : Succeeds (apply r .none d) w fun _ _ => True :=
  succeeds_bind ((whole_createPlugin housed live .none).succeeds rfl) fun _ _ beside housed' ⟨alive, _⟩ =>
    succeeds_fill housed' alive (storable.congr beside.data)

def enter (r : Ref .registry) (name definition : Value) : Edit (Ref .plugin) := do
  unless name = .none || name.str?.isSome do
    throw (.registration (.pluginName (← shown name)))
  let d ← if ← truthy definition then Definition.parse definition else pure {}
  apply r name d

theorem register_eq (r : Ref .registry) (name definition : Value) (w : World) :
    register r name definition w =
      if (w.heap.dict? name).isSome && definition = .none then enter r .none name w
      else enter r name definition w := by
  unfold register
  simp only [run_bind, run_lift, Quiet.run_heap]
  split <;> rfl

theorem storable_empty (h : Heap) : ({} : Definition).Storable h := by
  simp [Definition.Storable]

theorem whole_enter (housed : w.heap.Housed) (live : w.heap.Live r) (name definition : Value) :
    Whole (enter r name definition) w fun _ _ => True := by
  unfold enter
  split
  · refine whole_reads (reads_truthy definition) fun given _ => ?_
    cases given with
    | true =>
      exact whole_reads (Definition.reads_definition definition) fun d declared =>
        whole_apply housed live (Definition.storable_ofValue housed.hashable declared) name
    | false => exact whole_apply housed live (storable_empty _) name
  · refine whole_reads (reads_shown name) fun s _ => .inl ⟨_, rfl⟩

theorem whole_register (housed : w.heap.Housed) (live : w.heap.Live r) (name definition : Value) :
    Whole (register r name definition) w fun _ _ => True := by
  unfold Whole Succeeds
  rw [register_eq]
  split
  · exact whole_enter housed live .none name
  · exact whole_enter housed live name definition

theorem succeeds_register {v : Value} (housed : w.heap.Housed) (live : w.heap.Live r)
    (declared : (Definition.ofValue? w.heap v).isSome) :
    Succeeds (register r v .none) w fun _ _ => True := by
  obtain ⟨d, declared⟩ := Option.isSome_iff_exists.mp declared
  obtain ⟨entries, mapping, -⟩ := Option.bind_eq_some_iff.mp declared
  unfold Succeeds
  rw [register_eq, if_pos (by simp [mapping])]
  refine succeeds_found (reads_truthy v) rfl ?_
  cases w.heap.truthy v with
  | true =>
    exact succeeds_found (Definition.reads_definition v) declared
      (succeeds_apply housed live (Definition.storable_ofValue housed.hashable declared))
  | false => exact succeeds_apply housed live (storable_empty _)

theorem whole_registerMany (housed : w.heap.Housed) (live : w.heap.Live r) (definitions : Value) :
    Whole (registerMany r definitions) w fun _ _ => True := by
  refine whole_reads (reads_items definitions) fun vs _ => ?_
  refine whole_reads (reads_forM (fun v => reads_map _ (Definition.reads_definition v)) vs)
    fun _ declared => (succeeds_mapM housed fun v mem u beside housed' => ?_).whole
  refine succeeds_register housed' (beside.registries r live) ?_
  rw [beside.data.definition_eq]
  simpa using isSome_of_forM declared v mem

end Registry

/-! ## Enrolment -/

/-- What a host adds to a registry, to a plugin or to a set of patterns. -/
inductive Enrolment where
  | register (r : Ref .registry) (name definition : Value)
  | registerMany (r : Ref .registry) (definitions : Value)
  | addHandlers (p : Ref .plugin) (hook handlers : Value)
  | addMatchingRules (p : Ref .plugin) (rule patterns : Value)
  | addPatterns (m : Ref .matcher) (patterns : Value)

namespace Enrolment

def run : Enrolment → Edit Unit
  | .register r name definition => do
    let _ ← Registry.register r name definition
  | .registerMany r definitions => do
    let _ ← Registry.registerMany r definitions
  | .addHandlers p hook handlers => Plugin.addHandlersFor p hook handlers
  | .addMatchingRules p rule patterns => Plugin.addMatchingRules p rule patterns
  | .addPatterns m patterns => do
    let ps ← patternList patterns
    update m fun c => c.add ps

def Fits (h : Heap) : Enrolment → Prop
  | .register r .. | .registerMany r _ => h.Live r
  | .addHandlers p .. | .addMatchingRules p .. => h.Live p
  | .addPatterns m _ => h.Live m

theorem whole_run (e : Enrolment) (housed : w.heap.Housed) (fits : e.Fits w.heap) :
    Whole e.run w fun _ _ => True := by
  cases e with
  | register r name definition =>
    exact whole_bind (Registry.whole_register housed fits name definition) fun _ _ _ housed' _ =>
      succeeds_pure housed' trivial
  | registerMany r definitions =>
    exact whole_bind (Registry.whole_registerMany housed fits definitions) fun _ _ _ housed' _ =>
      succeeds_pure housed' trivial
  | addHandlers p hook handlers => exact Plugin.whole_addHandlersFor housed fits hook handlers
  | addMatchingRules p rule patterns =>
    exact Plugin.whole_addMatchingRules housed fits rule patterns
  | addPatterns m patterns =>
    exact whole_reads (reads_patterns patterns) fun ps _ => (succeeds_matcher housed).whole

end Enrolment

/-- Worlds in which registries and plugins have come about as a host makes them: a plugin belongs to a
registry, or to none. Anything may happen meanwhile that leaves registries and plugins as they are. -/
inductive Reached : World → Prop
  | start {w : World} (registries : w.heap.registries = #[]) (plugins : w.heap.plugins = #[])
      (hashable : w.heap.Hashable) : Reached w
  | meanwhile {w v : World} (before : Reached w)
      (registries : v.heap.registries = w.heap.registries)
      (plugins : v.heap.plugins = w.heap.plugins) (hashable : v.heap.Hashable) : Reached v
  | registry {w : World} (before : Reached w) (resolver directResolver compare : Value) :
      Reached (Registry.create resolver directResolver compare w).2
  | plugin {w : World} (before : Reached w) (name : Value) : Reached (Plugin.create name .none w).2
  | member {w : World} (before : Reached w) {r : Ref .registry} (live : w.heap.Live r) (name : Value) :
      Reached (Plugin.create name (.obj .registry r) w).2
  | created {w : World} (before : Reached w) {r : Ref .registry} (live : w.heap.Live r)
      (name : Value) : Reached (Registry.createPlugin r name w).2
  | renamed {w : World} (before : Reached w) {p : Ref .plugin} (live : w.heap.Live p) (name : Value) :
      Reached (w.set p { w.heap.get p with name := name })
  | compared {w : World} (before : Reached w) {r : Ref .registry} (live : w.heap.Live r)
      (compare : Value) : Reached (w.set r { w.heap.get r with compare := compare })
  | enrolled {w : World} (before : Reached w) {e : Enrolment} (fits : e.Fits w.heap) :
      Reached (e.run w).2

theorem Edit.Whole.housed {α : Type} {e : Edit α} {R : α → World → Prop} (whole : Whole e w R)
    (housed : w.heap.Housed) : (e w).2.heap.Housed := by
  rcases whole with ⟨f, run⟩ | ⟨a, v, run, -, housed', -⟩
  · rwa [run]
  · rwa [run]

theorem made_fanouts (ks : List Hook) (w : World) : ∃ fs v,
    (ks.mapM (m := Edit) fun h => return (h, ← Edit.create .fanout { hook := .hook h })) w =
      (.ok fs, v) ∧ fs.map Prod.fst = ks ∧ v.heap.registries = w.heap.registries ∧
      v.heap.plugins = w.heap.plugins ∧ w.heap.SameData v.heap := by
  induction ks generalizing w with
  | nil => exact ⟨[], w, rfl, rfl, rfl, rfl, .refl _⟩
  | cons k ks ih =>
    obtain ⟨fs, v, run, hooks, registries, plugins, data⟩ := ih (w.alloc .fanout { hook := .hook k })
    refine ⟨(k, w.heap.fresh .fanout) :: fs, v, ?_, by rw [List.map_cons, hooks], registries, plugins,
      ⟨data.lists, data.tuples, data.dicts⟩⟩
    simp only [List.mapM_cons, run_bind, run_create, run_pure, run]

theorem lookup_of_mem {fs : List (Hook × Ref .fanout)} {k : Hook} (mem : k ∈ fs.map Prod.fst) :
    ∃ f, fs.lookup k = some f := by
  induction fs with
  | nil => cases mem
  | cons e fs ih =>
    by_cases same : k = e.1
    · exact ⟨e.2, by rw [Assoc.lookup_cons, if_pos same]⟩
    · obtain ⟨f, found⟩ := ih (List.mem_of_ne_of_mem same mem)
      exact ⟨f, by rw [Assoc.lookup_cons, if_neg same, found]⟩

theorem housed_registry (housed : w.heap.Housed) (resolver directResolver compare : Value) :
    (Registry.create resolver directResolver compare w).2.heap.Housed := by
  obtain ⟨fs, v, run, hooks, registries, plugins, data⟩ := made_fanouts Hook.all w
  unfold Registry.create
  rw [run_bind, run]
  refine (housed.same registries plugins (housed.hashable.congr data)).alloc_registry (fun k => ?_) rfl
  apply lookup_of_mem
  rw [hooks]
  cases k <;> decide

theorem housed_of_reached (reached : Reached w) : w.heap.Housed := by
  induction reached with
  | start registries plugins hashable =>
    refine ⟨fun r live => ?_, fun p live => ?_, fun r live => ?_, hashable⟩
    · simp [Heap.Live, Heap.table, registries] at live
    · simp [Heap.Live, Heap.table, plugins] at live
    · simp [Heap.Live, Heap.table, registries] at live
  | meanwhile _ registries plugins hashable ih => exact ih.same registries plugins hashable
  | registry _ resolver direct compare ih => exact housed_registry ih resolver direct compare
  | plugin _ name ih => exact (Plugin.whole_create ih name (.inl rfl)).housed ih
  | member _ live name ih => exact (Plugin.whole_create ih name (.inr ⟨_, rfl, live⟩)).housed ih
  | created _ live name ih => exact (Registry.whole_createPlugin ih live name).housed ih
  | @renamed w _ p live name ih =>
    exact (succeeds_set_plugin (c := { w.heap.get p with name := name }) ih live rfl).whole.housed ih
  | compared _ live compare ih => exact ih.set_registry live rfl (ih.named _ live)
  | enrolled _ fits ih => exact (Enrolment.whole_run _ ih fits).housed ih

/-- What is refused changes nothing. -/
theorem enrolment_error_unchanged (reached : Reached w) {e : Enrolment} (fits : e.Fits w.heap)
    {f : Fault} {v : World} (failed : e.run w = (.error f, v)) : v = w := by
  rcases e.whole_run (housed_of_reached reached) fits with ⟨g, run⟩ | ⟨a, u, run, -⟩
  · rw [failed] at run
    cases run
    rfl
  · rw [failed] at run
    cases run

def flawed : World where
  heap :=
    { lists := #[[.str "**/*.css"]]
      dicts := #[Dict.ofTexts [("path", .obj .list ⟨0⟩)],
        Dict.ofTexts [("match", .obj .dict ⟨0⟩), ("transform", .int 5)]] }

theorem reached_flawed : Reached (Registry.create .none .none .none flawed).2 := by
  refine .registry (.start rfl rfl fun r => List.all_eq_true.mp ?_) .none .none .none
  rcases r with ⟨_ | _ | n⟩ <;> rfl

theorem enrolment_error_unchanged_flawed :
    ∃ w v f, (Enrolment.register ⟨0⟩ (.str "css") (.obj .dict ⟨1⟩)).run w = (.error f, v) ∧ v = w :=
  have fits : (Enrolment.register ⟨0⟩ (.str "css") (.obj .dict ⟨1⟩)).Fits
      (Registry.create .none .none .none flawed).2.heap := Nat.zero_lt_one
  ⟨_, _, .registration .handler, rfl, enrolment_error_unchanged reached_flawed fits rfl⟩

end AsyncImport
