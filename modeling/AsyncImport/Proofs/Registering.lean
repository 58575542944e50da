import AsyncImport.Proofs.Submissions

/-!
# Registrations are submissions

Each way in which a host makes registries and plugins, or hands something to a plugin, keeps the heap
`Enrolled`: what is accepted is one more submission, and what is refused is none.
-/

namespace AsyncImport

open Edit

theorem Edit.Reads.bind_ok {α β : Type} {e : Edit α} {find : Heap → Option α} {f : α → Edit β}
    {w v : World} {b : β} (reads : e.Reads find) (run : (e >>= f) w = (.ok b, v)) :
    ∃ a, find w.heap = some a ∧ f a w = (.ok b, v) := by
  rcases reads w with ⟨a, found, read⟩ | ⟨-, g, failed⟩
  · rw [run_bind, read] at run
    exact ⟨a, found, run⟩
  · rw [run_bind, failed] at run
    cases run

theorem Edit.Whole.data {α : Type} {e : Edit α} {R : α → World → Prop} {w v : World}
    {x : Except Fault α} (whole : Whole e w R) (run : e w = (x, v)) : w.heap.SameData v.heap := by
  rcases whole with ⟨f, run'⟩ | ⟨a, v, run', beside, -⟩ <;> cases run.symm.trans run'
  · exact .refl _
  · exact beside.data

variable {w v : World} {r : Ref .registry} {p : Ref .plugin} {ss : List Submission}

/-! ## A registry -/

theorem fresh_fanouts {ks : List Hook} {w v : World} {fs : List (Hook × Ref .fanout)}
    (run : (ks.mapM (m := Edit) fun h => return (h, ← Edit.create .fanout { hook := .hook h })) w =
      (.ok fs, v)) :
    (∀ f : Ref .fanout, w.heap.Live f → v.heap.Live f ∧ v.heap.get f = w.heap.get f) ∧
      (∀ e ∈ fs, ¬ w.heap.Live e.2 ∧ v.heap.Live e.2 ∧ (v.heap.get e.2).plugins = []) ∧
      (fs.map Prod.snd).Nodup := by
  induction ks generalizing w fs with
  | nil =>
    cases run
    exact ⟨fun f live => ⟨live, rfl⟩, by simp, List.nodup_nil⟩
  | cons k ks ih =>
    obtain ⟨gs, u, rest, -⟩ := made_fanouts ks (w.alloc .fanout { hook := .hook k })
    simp only [List.mapM_cons, run_bind, run_create, run_pure, rest] at run
    cases run
    obtain ⟨old, new, distinct⟩ := ih rest
    have first := old (w.heap.fresh .fanout) (Heap.live_fresh_alloc (k := .fanout) w.heap _)
    refine ⟨fun f live => ?_, fun e mem => ?_, ?_⟩
    · obtain ⟨there, same⟩ := old f (Heap.live_alloc.mpr (.inl live))
      exact ⟨there, same.trans (Heap.get_alloc_live _ _ live)⟩
    · rcases List.mem_cons.mp mem with rfl | later
      · refine ⟨Heap.not_live_fresh _ _, first.1, ?_⟩
        rw [first.2]
        exact congrArg Fanout.plugins (Heap.get_alloc_fresh (k := .fanout) _ _)
      · obtain ⟨absent, rest⟩ := new e later
        exact ⟨fun live => absent (Heap.live_alloc.mpr (.inl live)), rest⟩
    · refine List.nodup_cons.mpr ⟨fun mem => ?_, distinct⟩
      obtain ⟨e, later, same⟩ := List.mem_map.mp mem
      exact (new e later).1 (same ▸ Heap.live_fresh_alloc _ _)

theorem mem_of_lookup {fs : List (Hook × Ref .fanout)} {k : Hook} {f : Ref .fanout}
    (found : fs.lookup k = some f) : (k, f) ∈ fs := by
  obtain ⟨_, _, split, -⟩ := List.lookup_eq_some_iff.mp found
  simp [split]

theorem enrolled_registry (enrolled : w.heap.Enrolled ss)
    (resolver directResolver compare : Value) :
    (Registry.create resolver directResolver compare w).2.heap.Enrolled ss := by
  obtain ⟨fs, v, run, hooks, tables, plugins, data⟩ := made_fanouts Hook.all w
  have registries : v.heap.table .registry = w.heap.table .registry := tables
  obtain ⟨old, new, distinct⟩ := fresh_fanouts run
  have meanwhile : v.heap.Enrolled ss := enrolled.congr registries plugins old
    (enrolled.fitted.hashable.congr data)
  unfold Registry.create
  rw [run_bind, run]
  refine meanwhile.alloc_registry (fun k => lookup_of_mem ?_) rfl rfl (fun k f found => ?_)
    fun k l f found other => ?_
  · rw [hooks]
    cases k <;> decide
  · obtain ⟨absent, live, empty⟩ := new (k, f) (mem_of_lookup found)
    refine ⟨live, empty, fun r live l serves => absent ?_⟩
    rw [Heap.get, registries] at serves
    exact enrolled.fitted.served r (by rwa [Heap.Live, registries] at live) l f serves
  · exact congrArg Prod.fst
      (List.inj_on_of_nodup_map distinct (mem_of_lookup found) (mem_of_lookup other) rfl)

/-! ## A plugin -/

theorem Plugin.create_cases (name registry : Value) (w : World) :
    (∃ f, Plugin.create name registry w = (.error f, w)) ∨
      (name = .none ∨ name.isName = true) ∧ Plugin.create name registry w =
        (.ok (w.heap.fresh .plugin), w.alloc .plugin { name := name, registry := registry }) := by
  by_cases proper : name = .none ∨ name.isName
  · exact .inr ⟨proper, by simp [Plugin.create, proper]⟩
  · refine .inl ?_
    unfold Plugin.create
    rw [if_neg (by simpa using proper)]
    rcases reads_shown name w with ⟨s, -, run⟩ | ⟨-, f, run⟩
    · exact ⟨.plugin (.name s), by simp [run_bind, run]⟩
    · exact ⟨f, by simp [run_bind, run]⟩

theorem enrolled_plugin (enrolled : w.heap.Enrolled ss) (name : Value) {registry : Value}
    (home : registry = .none ∨ ∃ r, registry = .obj .registry r ∧ w.heap.Live r) :
    (Plugin.create name registry w).2.heap.Enrolled ss := by
  rcases Plugin.create_cases name registry w with ⟨f, run⟩ | ⟨-, run⟩ <;> rw [run]
  · exact enrolled
  · exact enrolled.alloc name home

namespace Registry

def newPlugin (r : Ref .registry) (name : Value) : Edit (Ref .plugin) := do
  let p ← Plugin.create name (.obj .registry r)
  update r fun c => c.addPlugin name.str? p
  debug "plugin.created" [("plugin", name)]
  return p

theorem newPlugin_cases (r : Ref .registry) (name : Value) (w : World) :
    (∃ f, newPlugin r name w = (.error f, w)) ∨ (name = .none ∨ name.isName = true) ∧
      ∃ v, newPlugin r name w = (.ok (w.heap.fresh .plugin), v) ∧
        v.heap = w.heap.withMember r name := by
  unfold newPlugin
  rcases Plugin.create_cases name (.obj .registry r) w with ⟨f, run⟩ | ⟨proper, run⟩
  · exact .inl ⟨f, by rw [run_bind, run]⟩
  · refine .inr ⟨proper, ?_⟩
    simp only [run_bind, run, run_update, run_lift, run_pure]
    exact ⟨_, rfl, rfl⟩

theorem run_find (r : Ref .registry) (s : String) (w : World) :
    find r (.str s) w = (.ok ((w.heap.get r).named.get? s), w) :=
  (reads_find r (.str s)).found rfl

theorem createPlugin_cases (r : Ref .registry) (name : Value) (w : World) :
    (∃ f, createPlugin r name w = (.error f, w)) ∨
      (∃ s p, name = .str s ∧ (w.heap.get r).named.get? s = some p ∧
        createPlugin r name w = (.ok p, w)) ∨
      (name = .none ∨ name.isName = true) ∧
        (∀ s, name = .str s → (w.heap.get r).named.get? s = none) ∧
        ∃ v, createPlugin r name w = (.ok (w.heap.fresh .plugin), v) ∧
          v.heap = w.heap.withMember r name := by
  unfold createPlugin
  split
  · next nameless =>
    refine (newPlugin_cases r name w).imp_right fun ⟨proper, made⟩ => .inr ⟨proper, ?_, made⟩
    simp [nameless]
  · rcases reads_find r name w with ⟨known, found, run⟩ | ⟨-, f, run⟩
    · simp only [run_bind, run]
      obtain ⟨k, -, named⟩ := Option.bind_eq_some_iff.mp found
      cases known with
      | some p =>
        obtain ⟨s, is, named⟩ := Option.bind_eq_some_iff.mp (Option.some.inj named)
        refine .inr (.inl ⟨s, p, ?_, named, rfl⟩)
        cases name <;> simp_all [Value.str?]
      | none =>
        refine (newPlugin_cases r name w).imp_right fun ⟨proper, made⟩ => .inr ⟨proper, ?_, made⟩
        rintro s rfl
        exact Option.some.inj named
    · exact .inl ⟨f, by simp only [run_bind, run]⟩

theorem named_createPlugin {s : String} (live : w.heap.Live r)
    (made : createPlugin r (.str s) w = (.ok p, v)) : (v.heap.get r).named.get? s = some p := by
  rcases createPlugin_cases r (.str s) w with ⟨f, run⟩ | ⟨t, q, is, known, run⟩ |
    ⟨-, -, u, run, same⟩ <;> cases made.symm.trans run
  · cases is
    exact known
  · rw [same, Heap.get_withMember_registry live, if_pos rfl]
    exact Heap.named_addPlugin.mpr (by rw [if_pos rfl])

theorem createPlugin_known {s : String} (known : (w.heap.get r).named.get? s = some p) :
    createPlugin r (.str s) w = (.ok p, w) := by
  unfold createPlugin
  rw [if_neg (by simp)]
  simp only [run_bind, run_find, known]
  rfl

end Registry

theorem enrolled_createPlugin (enrolled : w.heap.Enrolled ss) (live : w.heap.Live r)
    (name : Value) : (Registry.createPlugin r name w).2.heap.Enrolled ss := by
  rcases Registry.createPlugin_cases r name w with ⟨f, run⟩ | ⟨s, p, -, -, run⟩ |
    ⟨proper, unknown, v, run, same⟩ <;> rw [run]
  · exact enrolled
  · exact enrolled
  · rw [same]
    exact enrolled.withMember live proper unknown

/-! ## Definitions -/

namespace Registry

def definitionOf (h : Heap) (name definition : Value) : Value :=
  if (h.dict? name).isSome && definition = .none then name else definition

def nameOf (h : Heap) (name definition : Value) : Value :=
  if (h.dict? name).isSome && definition = .none then .none else name

theorem register_enter (r : Ref .registry) (name definition : Value) (w : World) :
    register r name definition w =
      enter r (nameOf w.heap name definition) (definitionOf w.heap name definition) w := by
  rw [register_eq, nameOf, definitionOf]
  split <;> rfl

theorem enter_eq {name definition : Value} {d : Definition}
    (proper : name = .none ∨ name.str?.isSome = true)
    (read : Definition.read? w.heap definition = some d) :
    enter r name definition w = (createPlugin r name >>= fun p => fill p d) w := by
  unfold enter
  rw [if_pos (by simpa using proper)]
  dsimp only
  rw [run_bind, (reads_truthy definition).found rfl]
  show _ = apply r name d w
  unfold Definition.read? at read
  cases given : w.heap.truthy definition with
  | true =>
    rw [given] at read
    simp only [if_true, run_bind, (Definition.reads_definition definition).found read]
  | false =>
    rw [given] at read
    cases read
    rfl

theorem enter_ok {name definition : Value} (run : enter r name definition w = (.ok p, v)) :
    (name = .none ∨ name.str?.isSome = true) ∧
      ∃ d, Definition.read? w.heap definition = some d := by
  unfold enter at run
  split at run
  · next proper =>
    refine ⟨by simpa using proper, ?_⟩
    unfold Definition.read?
    dsimp only at run
    rw [run_bind, (reads_truthy definition).found rfl] at run
    cases given : w.heap.truthy definition with
    | true =>
      rw [given] at run
      obtain ⟨d, found, -⟩ := (Definition.reads_definition definition).bind_ok run
      exact ⟨d, found⟩
    | false => exact ⟨{}, rfl⟩
  · obtain ⟨s, _, -, never⟩ := bind_ok run
    cases never

/-- A definition that is registered was read, and its plugin gains what it says. -/
theorem register_ok {name definition : Value} (enrolled : w.heap.Enrolled ss)
    (live : w.heap.Live r) (run : register r name definition w = (.ok p, v)) :
    ∃ d u, Definition.read? w.heap (definitionOf w.heap name definition) = some d ∧
      createPlugin r (nameOf w.heap name definition) w = (.ok p, u) ∧ u.heap.Enrolled ss ∧
      u.heap.Live p ∧ v.heap.Housed ∧ fill p d u = (.ok p, v) ∧
      Heap.Gains p (fun k => (d.handlers.get? k).getD [])
        (fun κ => d.rules.flatMap fun rule => if w.heap.key? rule.1 = some κ then [rule.2] else [])
        u.heap v.heap := by
  rw [register_enter] at run
  obtain ⟨proper, d, read⟩ := enter_ok run
  rw [enter_eq proper read] at run
  obtain ⟨q, u, made, filled⟩ := bind_ok run
  obtain ⟨_, _, made', beside, housed, alive, -⟩ :=
    (whole_createPlugin enrolled.fitted.toHoused live _).succeeds made
  cases made.symm.trans made'
  have enrolled' : u.heap.Enrolled ss := by
    have kept := enrolled_createPlugin enrolled live (nameOf w.heap name definition)
    rwa [made] at kept
  have storable := (Definition.storable_of_read enrolled.fitted.hashable read).congr beside.data
  obtain ⟨_, _, filled', -, housed', rfl, gains⟩ := gains_fill enrolled'.fitted alive storable
  cases filled.symm.trans filled'
  refine ⟨d, u, read, made, enrolled', alive, housed', filled, ?_⟩
  simpa only [Assoc.flatMap_entries (Definition.distinct_of_read read), beside.data.key?_eq]
    using gains

end Registry

theorem enrolled_register {h : Heap} {name definition x : Value} (enrolled : w.heap.Enrolled ss)
    (live : w.heap.Live r) (run : Registry.register r name definition w = (.ok p, v))
    (is : Registry.definitionOf w.heap name definition = x) (data : h.SameData w.heap)
    (same : Definition.read? w.heap x = Definition.read? h x) :
    v.heap.Enrolled (ss ++ [⟨p, h, .definition x⟩]) := by
  obtain ⟨d, u, read, -, enrolled', alive, housed, -, gains⟩ :=
    Registry.register_ok enrolled live run
  rw [is, same] at read
  refine enrolled'.gains alive ?_ housed
  rw [Submission.handlers_definition read, Submission.rules_definition read]
  simpa only [data.key?_eq] using gains

theorem enrolled_mapM {h : Heap} {ds : List Value} {ps : List (Ref .plugin)}
    (enrolled : w.heap.Enrolled ss) (live : w.heap.Live r) (data : h.SameData w.heap)
    (mappings : ∀ d ∈ ds, (h.dict? d).isSome = true)
    (run : (ds.mapM fun d => Registry.register r d .none) w = (.ok ps, v)) :
    v.heap.Enrolled (ss ++ (ps.zip ds).map fun e => ⟨e.1, h, .definition e.2⟩) := by
  induction ds generalizing w ss ps with
  | nil =>
    cases run
    simpa using enrolled
  | cons d ds ih =>
    rw [List.mapM_cons] at run
    obtain ⟨p, u, first, run⟩ := bind_ok run
    obtain ⟨qs, _, rest, ends⟩ := bind_ok run
    cases ends
    obtain ⟨_, _, first', beside, -⟩ :=
      (Registry.whole_register enrolled.fitted.toHoused live d .none).succeeds first
    cases first.symm.trans first'
    have mapping := mappings d List.mem_cons_self
    have is : Registry.definitionOf w.heap d .none = d := by
      rw [Registry.definitionOf, data.dict?_eq, mapping]
      rfl
    have next := enrolled_register enrolled live first is data (Definition.read?_eq data mapping)
    have all := ih next (beside.registries r live) (data.trans beside.data)
      (fun e mem => mappings e (List.mem_cons_of_mem _ mem)) rest
    rwa [List.append_assoc] at all

theorem enrolled_registerMany {definitions : Value} {ps : List (Ref .plugin)}
    (enrolled : w.heap.Enrolled ss) (live : w.heap.Live r)
    (run : Registry.registerMany r definitions w = (.ok ps, v)) :
    v.heap.Enrolled (ss ++ (ps.zip ((w.heap.items? definitions).getD [])).map fun e =>
      ⟨e.1, w.heap, .definition e.2⟩) := by
  unfold Registry.registerMany at run
  obtain ⟨ds, found, run⟩ := (reads_items definitions).bind_ok run
  obtain ⟨_, declared, run⟩ :=
    (reads_forM (fun v => reads_map _ (Definition.reads_definition v)) ds).bind_ok run
  rw [found]
  refine enrolled_mapM enrolled live (.refl _) (fun d mem => ?_) run
  have read := isSome_of_forM declared d mem
  rw [Option.isSome_map] at read
  obtain ⟨_, read⟩ := Option.isSome_iff_exists.mp read
  obtain ⟨_, mapping, -⟩ := Option.bind_eq_some_iff.mp read
  simp [mapping]

/-! ## Handlers and rules -/

theorem enrolled_addHandlersFor {hook x : Value} (enrolled : w.heap.Enrolled ss)
    (live : w.heap.Live p) (run : Plugin.addHandlersFor p hook x w = (.ok (), v)) :
    v.heap.Enrolled (ss ++ [⟨p, w.heap, .handlers hook x⟩]) := by
  unfold Plugin.addHandlersFor at run
  obtain ⟨k, denoted, run⟩ := (reads_hook hook).bind_ok run
  obtain ⟨ts, listed, run⟩ := (Handler.reads_handlers x).bind_ok run
  obtain ⟨_, _, run', -, housed, gains⟩ := Plugin.gains_addParsed enrolled.fitted live k ts
  cases run.symm.trans run'
  refine enrolled.gains live ?_ housed
  have handlers : (⟨p, w.heap, .handlers hook x⟩ : Submission).handlers =
      fun l => if l = k then ts else [] := by
    funext l
    simp only [Submission.handlers, Submission.lists, denoted, listed, Option.some.injEq, eq_comm]
    split <;> rfl
  rw [handlers]
  exact gains

theorem enrolled_addMatchingRules {rule x : Value} (enrolled : w.heap.Enrolled ss)
    (live : w.heap.Live p) (run : Plugin.addMatchingRules p rule x w = (.ok (), v)) :
    v.heap.Enrolled (ss ++ [⟨p, w.heap, .rule rule x⟩]) := by
  unfold Plugin.addMatchingRules at run
  obtain ⟨c, known, run⟩ := (Plugin.reads_comparison p).bind_ok run
  obtain ⟨m, made, run⟩ := (reads_map (Matcher.of c) (reads_patterns x)).bind_ok run
  obtain ⟨ps, listed, rfl⟩ := Option.map_eq_some_iff.mp made
  obtain ⟨κ, key, -⟩ := (reads_key rule).bind_ok run
  obtain ⟨_, _, run', -, housed, gains⟩ :=
    Plugin.gains_setMatcher enrolled.fitted live key known ps
  cases run.symm.trans run'
  refine enrolled.gains live ?_ housed
  have rules : (⟨p, w.heap, .rule rule x⟩ : Submission).rules =
      fun l => if l = κ then [ps] else [] := by
    funext l
    simp only [Submission.rules, key, listed, Option.some.injEq, eq_comm]
    split <;> rfl
  rw [rules]
  exact gains

end AsyncImport
