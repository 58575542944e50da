import AsyncImport.Proofs.Registering

/-!
# Who takes part in a hook

The fan-out of a hook holds the plugins of its registry that have handlers for the hook, each once and in
the order in which each got its first one; and a registry finds its plugins under their names. This is so
whatever was called, in whatever order, and however often a call was refused.
-/

namespace AsyncImport

open Edit

variable {w v : World} {r : Ref .registry} {ss : List Submission}

/-- Worlds in which registries and plugins have come about as a host makes them, together with what was
handed over and accepted so far. Anything may happen meanwhile that leaves registries, plugins and
fan-outs as they are. -/
inductive Submitted : World → List Submission → Prop
  | start {w : World} (registries : w.heap.registries = #[]) (plugins : w.heap.plugins = #[])
      (keyed : w.heap.WellKeyed) : Submitted w []
  | meanwhile {w v : World} {ss : List Submission} (before : Submitted w ss)
      (registries : v.heap.registries = w.heap.registries)
      (plugins : v.heap.plugins = w.heap.plugins)
      (fanouts : ∀ f : Ref .fanout, w.heap.Live f → v.heap.Live f ∧ v.heap.get f = w.heap.get f)
      (keyed : v.heap.WellKeyed) : Submitted v ss
  | registry {w : World} {ss : List Submission} (before : Submitted w ss)
      (resolver directResolver compare : Value) :
      Submitted (Registry.create resolver directResolver compare w).2 ss
  | plugin {w : World} {ss : List Submission} (before : Submitted w ss) (name : Value)
      {registry : Value}
      (home : registry = .none ∨ ∃ r, registry = .obj .registry r ∧ w.heap.Live r) :
      Submitted (Plugin.create name registry w).2 ss
  | created {w : World} {ss : List Submission} (before : Submitted w ss) {r : Ref .registry}
      (live : w.heap.Live r) (name : Value) : Submitted (Registry.createPlugin r name w).2 ss
  | registered {w v : World} {ss : List Submission} (before : Submitted w ss) {r : Ref .registry}
      {p : Ref .plugin} {name definition : Value} (live : w.heap.Live r)
      (run : Registry.register r name definition w = (.ok p, v)) :
      Submitted v (ss ++ [⟨p, w.heap, .definition (Registry.definitionOf w.heap name definition)⟩])
  | registeredMany {w v : World} {ss : List Submission} (before : Submitted w ss)
      {r : Ref .registry} {ps : List (Ref .plugin)} {definitions : Value} (live : w.heap.Live r)
      (run : Registry.registerMany r definitions w = (.ok ps, v)) :
      Submitted v (ss ++ (ps.zip ((w.heap.items? definitions).getD [])).map fun e =>
        ⟨e.1, w.heap, .definition e.2⟩)
  | handlers {w v : World} {ss : List Submission} (before : Submitted w ss) {p : Ref .plugin}
      {hook x : Value} (live : w.heap.Live p)
      (run : Plugin.addHandlersFor p hook x w = (.ok (), v)) :
      Submitted v (ss ++ [⟨p, w.heap, .handlers hook x⟩])
  | rules {w v : World} {ss : List Submission} (before : Submitted w ss) {p : Ref .plugin}
      {rule x : Value} (live : w.heap.Live p)
      (run : Plugin.addMatchingRules p rule x w = (.ok (), v)) :
      Submitted v (ss ++ [⟨p, w.heap, .rule rule x⟩])
  | refused {w v : World} {ss : List Submission} (before : Submitted w ss) {e : Enrolment}
      {f : Fault} (fits : e.Fits w.heap) (run : e.run w = (.error f, v)) : Submitted v ss

theorem enrolled_of_submitted (submitted : Submitted w ss) :
    w.heap.Enrolled ss ∧ w.heap.WellKeyed ∧ ∀ s ∈ ss, s.heap.WellKeyed := by
  -- what was handed over was read from mappings that were in order at that time, whatever became of them
  induction submitted with
  | start registries plugins keyed =>
    exact ⟨.start registries plugins keyed.hashable, keyed, by simp⟩
  | meanwhile _ registries plugins fanouts keyed ih =>
    exact ⟨ih.1.congr registries plugins fanouts keyed.hashable, keyed, ih.2.2⟩
  | @registry w ss _ resolver direct compare ih =>
    obtain ⟨enrolled, keyed, before⟩ := ih
    refine ⟨enrolled_registry enrolled resolver direct compare, keyed.congr ?_, before⟩
    obtain ⟨fs, v, run, -, -, -, data⟩ := made_fanouts Hook.all w
    unfold Registry.create
    rw [run_bind, run]
    exact ⟨data.lists, data.tuples, data.dicts⟩
  | plugin _ name home ih =>
    obtain ⟨enrolled, keyed, before⟩ := ih
    exact ⟨enrolled_plugin enrolled name home,
      keyed.congr ((Plugin.whole_create enrolled.fitted.toHoused name home).data rfl), before⟩
  | created _ live name ih =>
    obtain ⟨enrolled, keyed, before⟩ := ih
    exact ⟨enrolled_createPlugin enrolled live name,
      keyed.congr ((Registry.whole_createPlugin enrolled.fitted.toHoused live name).data rfl),
      before⟩
  | registered _ live run ih =>
    obtain ⟨enrolled, keyed, before⟩ := ih
    refine ⟨enrolled_register enrolled live run rfl (.refl _) rfl,
      keyed.congr ((Registry.whole_register enrolled.fitted.toHoused live _ _).data run), ?_⟩
    simpa [or_imp, forall_and] using ⟨before, keyed⟩
  | registeredMany _ live run ih =>
    obtain ⟨enrolled, keyed, before⟩ := ih
    refine ⟨enrolled_registerMany enrolled live run,
      keyed.congr ((Registry.whole_registerMany enrolled.fitted.toHoused live _).data run), ?_⟩
    intro s mem
    rcases List.mem_append.mp mem with old | new
    · exact before s old
    · obtain ⟨c, -, rfl⟩ := List.mem_map.mp new
      exact keyed
  | handlers _ live run ih =>
    obtain ⟨enrolled, keyed, before⟩ := ih
    refine ⟨enrolled_addHandlersFor enrolled live run,
      keyed.congr ((Plugin.whole_addHandlersFor enrolled.fitted.toHoused live _ _).data run), ?_⟩
    simpa [or_imp, forall_and] using ⟨before, keyed⟩
  | rules _ live run ih =>
    obtain ⟨enrolled, keyed, before⟩ := ih
    refine ⟨enrolled_addMatchingRules enrolled live run,
      keyed.congr ((Plugin.whole_addMatchingRules enrolled.fitted.toHoused live _ _).data run), ?_⟩
    simpa [or_imp, forall_and] using ⟨before, keyed⟩
  | @refused _ _ _ _ e f fits run ih =>
    rcases e.whole_run ih.1.fitted.toHoused fits with ⟨g, run'⟩ | ⟨a, u, run', -⟩ <;>
      cases run.symm.trans run'
    exact ih

theorem run_fanoutFor {k : Hook} {f : Ref .fanout} (serves : (w.heap.get r).fanout? k = some f) :
    (Registry.fanoutFor r (.hook k)).run w = (.ok f, w) := by
  unfold Registry.fanoutFor
  simp [run_bind, Hook.parse, serves]

/-- The fan-out of a hook holds the plugins with handlers, once and in the order of their first ones; the
plugins of a registry are listed once, no two under one name, and a name finds the one that has it. -/
theorem members_in_order (submitted : Submitted w ss) (live : w.heap.Live r) :
    (∀ k, ∃ f, (Registry.fanoutFor r (.hook k)).run w = (.ok f, w) ∧
      (w.heap.get f).plugins = (w.heap.entrants r k ss).map (.obj .plugin) ∧
      (w.heap.get f).plugins.Nodup ∧
      ∀ p : Ref .plugin, .obj .plugin p ∈ (w.heap.get f).plugins ↔ w.heap.Live p ∧
        (w.heap.get p).registry = .obj .registry r ∧ (w.heap.get p).hasHandlers k = true) ∧
    (w.heap.get r).plugins.Nodup ∧
    (∀ p ∈ (w.heap.get r).plugins, ∀ q ∈ (w.heap.get r).plugins, ∀ s : String,
      (w.heap.get p).name = .str s → (w.heap.get q).name = .str s → p = q) ∧
    ∀ s (p : Ref .plugin), Registry.find r (.str s) w = (.ok (some p), w) ↔
      p ∈ (w.heap.get r).plugins ∧ (w.heap.get p).name = .str s := by
  obtain ⟨⟨fitted, filled, lined, listed⟩, -, -⟩ := enrolled_of_submitted submitted
  have named (p) (mem : p ∈ (w.heap.get r).plugins) (s) (name : (w.heap.get p).name = .str s) :
      (w.heap.get r).named.get? s = some p := by
    rcases listed.found r live p mem with nameless | ⟨t, is, found⟩
    · simp [nameless] at name
    · rw [is] at name
      cases name
      exact found
  refine ⟨fun k => ?_, listed.distinct r live, fun p mem q there s name same => ?_, fun s p => ?_⟩
  · obtain ⟨f, serves⟩ := fitted.hooks r live k
    have members := lined r live k f serves
    refine ⟨f, run_fanoutFor serves, members, ?_, fun p => ?_⟩
    · rw [members]
      exact (nodup_eraseDups _).map fun p q same => by cases same; rfl
    · rw [members]
      have entered := Heap.mem_entrants filled (p := p) (r := r) (k := k)
      simpa [Plugin.hasHandlers] using entered
  · exact Option.some.inj ((named p mem s name).symm.trans (named q there s same))
  · rw [Registry.run_find]
    constructor
    · intro found
      exact listed.named r live s p (Except.ok.inj (congrArg Prod.fst found))
    · rintro ⟨mem, name⟩
      rw [named p mem s name]

/-! ## Style sheets -/

namespace Styles

def given : World where
  heap :=
    { lists := #[[.host "prefix", .host "minify", .host "prefix"], [.str "*.css", .str "*.css"],
        [.handler (.host "minify") (.int 1), .str "sass"]]
      dicts := #[Dict.ofTexts [("name", .obj .list ⟨1⟩)],
        Dict.ofTexts [("match", .obj .dict ⟨0⟩), ("transform", .obj .list ⟨0⟩)],
        Dict.ofTexts [("transform", .int 5)], Dict.ofTexts [("name", .str "*.scss")],
        Dict.ofTexts [("match", .obj .dict ⟨3⟩), ("transform", .obj .list ⟨2⟩)]] }

theorem wellKeyed_given : given.heap.WellKeyed := by
  refine ⟨fun r => of_decide_eq_true ?_, fun r => ?_⟩
  · rcases r with ⟨_ | _ | _ | _ | _ | n⟩ <;> rfl
  · have filed : ((given.heap.get r).entries.all fun e => given.heap.key? e.2.1 = some e.1) = true := by
      rcases r with ⟨_ | _ | _ | _ | _ | n⟩ <;> rfl
    simpa using filed

def opened : World :=
  (Plugin.create (.str "sass") (.obj .registry ⟨0⟩) (Registry.create .none .none .none given).2).2

def registered : World := (Registry.register ⟨0⟩ (.str "css") (.obj .dict ⟨1⟩) opened).2

def extended : World :=
  (Plugin.addHandlersFor ⟨0⟩ (.hook .transform) (.host "minify") registered).2

def submissions : List Submission :=
  [⟨⟨1⟩, opened.heap, .definition (.obj .dict ⟨1⟩)⟩,
    ⟨⟨0⟩, registered.heap, .handlers (.hook .transform) (.host "minify")⟩]

theorem submitted_extended : Submitted extended submissions := by
  have begun : Submitted opened [] :=
    .plugin (.registry (.start rfl rfl wellKeyed_given) .none .none .none) (.str "sass")
      (.inr ⟨⟨0⟩, rfl, Nat.zero_lt_one⟩)
  have refused : (Enrolment.register ⟨0⟩ (.str "less") (.obj .dict ⟨2⟩)).run opened =
    (.error (.registration .handler), opened) := rfl
  have first : Registry.register ⟨0⟩ (.str "css") (.obj .dict ⟨1⟩) opened = (.ok ⟨1⟩, registered) :=
    rfl
  have next : Plugin.addHandlersFor ⟨0⟩ (.hook .transform) (.host "minify") registered =
    (.ok (), extended) := rfl
  have kept : Submitted opened [] := .refused begun (e := .register ⟨0⟩ _ _) Nat.zero_lt_one refused
  exact .handlers (.registered kept Nat.zero_lt_one first) (by decide) next

end Styles

theorem members_in_order_styles :
    Submitted Styles.extended Styles.submissions ∧
      Styles.extended.heap.Live (⟨0⟩ : Ref .registry) ∧
      ∃ f, (Registry.fanoutFor ⟨0⟩ (.hook .transform)).run Styles.extended =
        (.ok f, Styles.extended) ∧
        (Styles.extended.heap.get f).plugins = [.obj .plugin ⟨1⟩, .obj .plugin ⟨0⟩] := by
  have live : Styles.extended.heap.Live (⟨0⟩ : Ref .registry) := by decide
  obtain ⟨f, run, members, -⟩ := (members_in_order Styles.submitted_extended live).1 .transform
  exact ⟨Styles.submitted_extended, live, f, run, members.trans rfl⟩

end AsyncImport
