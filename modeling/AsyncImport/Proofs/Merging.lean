import AsyncImport.Proofs.Membership

/-!
# Merging keeps first occurrences

A plugin has for each hook all handlers that were listed for it, in order and each once, and for each rule
the patterns that were given last. To register a definition again under its name hence changes nothing.
-/

namespace AsyncImport

open Edit

variable {w v : World} {r : Ref .registry} {p : Ref .plugin} {ss : List Submission}

/-! ## Hooks by their names -/

namespace Submission

variable {s : Submission}

/-- Hooks are given by their names. -/
def Spelled (s : Submission) : Prop :=
  match s.offer with
  | .definition v => ∀ e ∈ Definition.entries s.heap v, e.1.str?.isSome = true
  | _ => True

theorem text_of_ofValue? {v : Value} {k : Hook} (text : v.str?.isSome = true)
    (denotes : Hook.ofValue? v = some k) : v = .str k.text := by
  cases v with
  | str t =>
    have named := List.find?_some denotes
    rw [of_decide_eq_true named]
  | _ => cases text

/-- A hook has one name, so that one key at most denotes it. -/
theorem length_lists_le_one (keyed : s.heap.WellKeyed) (spelled : s.Spelled) (k : Hook) :
    (s.lists k).length ≤ 1 := by
  unfold lists
  unfold Spelled at spelled
  split
  · next v offer =>
    rw [offer] at spelled
    refine Nat.le_trans (List.length_filterMap_le _ _) ?_
    have distinct := ((List.filter_sublist
      (p := fun e => decide (Hook.ofValue? e.1 = some k))).map _).nodup
        (Definition.nodup_keys keyed v)
    have same : ∀ x ∈ ((Definition.entries s.heap v).filter fun e =>
        decide (Hook.ofValue? e.1 = some k)).map fun e => s.heap.key? e.1,
        x = s.heap.key? (.str k.text) := by
      intro x mem
      obtain ⟨e, there, rfl⟩ := List.mem_map.mp mem
      obtain ⟨there, denotes⟩ := List.mem_filter.mp there
      rw [text_of_ofValue? (spelled e there) (of_decide_eq_true denotes)]
    rw [List.eq_replicate_of_mem same, List.nodup_replicate, List.length_map] at distinct
    exact distinct
  · split
    · cases Handler.listOfValue? s.heap _ <;> simp
    · simp
  · simp

theorem handlers_eq_entries (keyed : s.heap.WellKeyed) (spelled : s.Spelled) (k : Hook) :
    s.handlers k = s.entries k := by
  have one := length_lists_le_one keyed spelled k
  unfold handlers entries
  match s.lists k, one with
  | [], _ => rfl
  | [ts], _ => simp

end Submission

/-! ## Once more -/

theorem Heap.set_get (h : Heap) {k : Kind} (r : Ref k) : h.set r (h.get r) = h := by
  have same : (h.table k).setIfInBounds r.id (h.get r) = h.table k := by
    apply Array.ext_getElem?
    intro i
    rw [Array.getElem?_setIfInBounds]
    split
    · next e =>
      subst e
      split
      · next live => simp [get, live]
      · next dead => simp [dead]
    · rfl
  rw [set, same]
  cases k <;> rfl

theorem Plugin.setRule_eq {c : Plugin} {κ : Key} {rule : Value} {m : Matcher}
    (known : c.matcherFor κ = some m) : c.setRule κ ⟨rule, m⟩ = c := by
  obtain ⟨old, found, rfl⟩ := Option.map_eq_some_iff.mp known
  have same : c.rules.insert κ ⟨((c.rules.get? κ).map Rule.name).getD rule, old.matcher⟩ =
    c.rules := Assoc.insert_get (by simp [found])
  unfold setRule
  dsimp only
  rw [same]

theorem Plugin.addHandlers_eq {c : Plugin} {k : Hook} {ts : List Handler}
    (known : Handler.merge (c.handlersFor k) ts = c.handlersFor k) : c.addHandlers k ts = c := by
  unfold addHandlers
  rw [known]
  exact if_pos rfl

theorem forM_unchanged {γ : Type} {f : γ → Edit PUnit} {cs : List γ}
    (each : ∀ c ∈ cs, f c w = (.ok (), w)) : cs.forM f w = (.ok (), w) := by
  induction cs with
  | nil => rfl
  | cons c cs ih =>
    show (f c >>= fun _ => cs.forM f) w = _
    rw [run_bind, each c List.mem_cons_self]
    exact ih fun d mem => each d (List.mem_cons_of_mem _ mem)

namespace Registry

variable {d : Definition}

theorem fill_unchanged {c : Value} (compared : Plugin.comparison? w.heap p = some c)
    (rules : ∀ rule ∈ d.rules, ∃ κ, w.heap.key? rule.1 = some κ ∧
      (w.heap.get p).matcherFor κ = some (.of c rule.2))
    (handlers : ∀ e ∈ d.handlers.entries,
      Handler.merge ((w.heap.get p).handlersFor e.1) e.2 = (w.heap.get p).handlersFor e.1) :
    fill p d w = (.ok p, w) := by
  have first : (d.rules.forM fun rule => do
      let compare ← Plugin.comparison p
      Plugin.setMatcher p rule.1 (.of compare rule.2)) w = (.ok (), w) := by
    refine forM_unchanged fun rule mem => ?_
    obtain ⟨κ, key, known⟩ := rules rule mem
    simp only [run_bind, (Plugin.reads_comparison p).found compared, Plugin.setMatcher,
      (reads_key rule.1).found key, run_update]
    rw [Plugin.setRule_eq known, World.set, Heap.set_get]
  have next : (d.handlers.entries.forM fun e => Plugin.addParsed p e.1 e.2) w = (.ok (), w) := by
    refine forM_unchanged fun e mem => ?_
    unfold Plugin.addParsed
    simp only [run_bind, (reads_read p).found rfl]
    rw [Plugin.addHandlers_eq (handlers e mem), Nat.sub_self]
    rfl
  unfold fill
  rw [run_bind, first]
  simp only [run_bind, next]
  rfl

/-- A definition says the same after it was registered. -/
theorem read_again {x name : Value} {u : World} (data : w.heap.SameData v.heap)
    (read : Definition.read? w.heap x = some d) (made : createPlugin r name w = (.ok p, u))
    (filled : fill p d u = (.ok p, v)) : Definition.read? v.heap x = some d := by
  cases mapping : (w.heap.dict? x).isSome with
  | true => rw [Definition.read?_eq data mapping, read]
  | false =>
    -- Nothing but a mapping is read: what was given counts as false, and nothing was added.
    have missing : Definition.ofValue? w.heap x = none := by
      have mapping : w.heap.dict? x = none := by simpa using mapping
      rw [Definition.ofValue?, mapping]
      rfl
    unfold Definition.read? at read ⊢
    split at read
    · simp [missing] at read
    · next falsy =>
      cases read
      cases filled
      rw [if_neg]
      rcases createPlugin_cases r name w with ⟨f, run⟩ | ⟨s, p, -, -, run⟩ | ⟨-, -, u, run, same⟩ <;>
        cases made.symm.trans run
      · exact falsy
      · rw [same, Heap.truthy_withMember]
        exact falsy

theorem register_again {s : String} {definition : Value} (enrolled : w.heap.Enrolled ss)
    (keyed : w.heap.WellKeyed) (live : w.heap.Live r)
    (run : register r (.str s) definition w = (.ok p, v)) :
    register r (.str s) definition v = (.ok p, v) := by
  have data := (whole_register enrolled.fitted.toHoused live _ _).data run
  obtain ⟨d, u, read, made, enrolled', alive, housed, filled, gains⟩ :=
    register_ok enrolled live run
  have known : (v.heap.get r).named.get? s = some p := by
    rw [gains.get_registry]
    exact named_createPlugin live made
  rw [register_enter]
  show enter r (.str s) (definitionOf w.heap (.str s) definition) v = _
  rw [enter_eq (.inr rfl) (read_again data read made filled), run_bind, createPlugin_known known]
  obtain ⟨c, compared⟩ := Plugin.comparison_of_home (enrolled'.fitted.home p alive)
  refine fill_unchanged (by rw [gains.comparison_eq, compared]) (fun rule mem => ?_) fun e mem => ?_
  · obtain ⟨κ, key⟩ := Option.isSome_iff_exists.mp
      (Definition.storable_of_read enrolled.fitted.hashable read rule mem)
    refine ⟨κ, by rw [data.key?_eq, key], ?_⟩
    have one := flatMap_of_distinct (g := Prod.snd) (Definition.rules_distinct keyed read) mem
    rw [gains.matchers, ← key]
    simp only [one, List.getLast?_singleton, Option.map_some, Option.some_or, Heap.matcherOf,
      compared, Option.getD_some]
  · have known := Assoc.get?_of_mem (Definition.distinct_of_read read) mem
    rw [gains.handlers]
    simp only [known, Option.getD_some, Handler.merge_merge]

end Registry

/-- A plugin has the first occurrences of all handlers that reached it, and for each rule the patterns that
were given last; a definition that is registered again under its name changes nothing. -/
theorem submissions_merged (submitted : Submitted w ss) (live : w.heap.Live p) :
    ((∀ s ∈ Submission.reaching p ss, s.Spelled) → ∀ k, (w.heap.get p).handlersFor k =
      ((Submission.reaching p ss).flatMap (Submission.entries · k)).eraseDupsBy
        Handler.sameTarget) ∧
    (∀ κ, (w.heap.get p).patternsFor κ =
      ((Submission.reaching p ss).flatMap (Submission.rules · κ)).getLast?.map List.eraseDups) ∧
    ∀ (r : Ref .registry) (name : String) (definition : Value) (q : Ref .plugin) (v : World),
      w.heap.Live r → Registry.register r (.str name) definition w = (.ok q, v) →
      Registry.register r (.str name) definition v = (.ok q, v) := by
  obtain ⟨enrolled, keyed, before⟩ := enrolled_of_submitted submitted
  refine ⟨fun spelled k => ?_, enrolled.filled.patterns p live, fun r s definition q v known run => ?_⟩
  · have same : (Submission.reaching p ss).flatMap (Submission.handlers · k) =
        (Submission.reaching p ss).flatMap (Submission.entries · k) :=
      List.flatMap_congr fun s mem => Submission.handlers_eq_entries
        (before s (List.mem_of_mem_filter mem)) (spelled s mem) k
    rw [enrolled.filled.handlers p live, same, Handler.merge_nil]
  · exact Registry.register_again enrolled keyed known run

/-- The style sheets, registered again with other rules and one more handler. -/
def Styles.renewed : World :=
  (Registry.register ⟨0⟩ (.str "css") (.obj .dict ⟨4⟩) Styles.extended).2

theorem submissions_merged_styles :
    ∃ ss, Submitted Styles.renewed ss ∧ Styles.renewed.heap.Live (⟨1⟩ : Ref .plugin) ∧
      (∀ s ∈ Submission.reaching ⟨1⟩ ss, s.Spelled) ∧
      (Styles.renewed.heap.get (⟨1⟩ : Ref .plugin)).handlersFor .transform =
        [⟨.host "prefix", .none⟩, ⟨.host "minify", .none⟩, ⟨.str "sass", .none⟩] ∧
      (Styles.renewed.heap.get (⟨1⟩ : Ref .plugin)).patternsFor (Key.text "name") =
        some ["*.scss"] ∧
      ∃ v, Registry.register ⟨0⟩ (.str "css") (.obj .dict ⟨1⟩) Styles.renewed = (.ok ⟨1⟩, v) ∧
        Registry.register ⟨0⟩ (.str "css") (.obj .dict ⟨1⟩) v = (.ok ⟨1⟩, v) := by
  have live : Styles.renewed.heap.Live (⟨1⟩ : Ref .plugin) := by decide
  have run : Registry.register ⟨0⟩ (.str "css") (.obj .dict ⟨4⟩) Styles.extended =
    (.ok ⟨1⟩, Styles.renewed) := rfl
  have submitted := Submitted.registered Styles.submitted_extended (by decide) run
  obtain ⟨handlers, patterns, again⟩ := submissions_merged submitted live
  have spelled : ∀ s ∈ Submission.reaching ⟨1⟩ (Styles.submissions ++ [⟨⟨1⟩, Styles.extended.heap,
      .definition (Registry.definitionOf Styles.extended.heap (.str "css") (.obj .dict ⟨4⟩))⟩]),
      s.Spelled := by
    intro s mem
    have mem : s ∈ [_, _] := mem
    obtain rfl | rfl : s = _ ∨ s = _ := by simpa using mem
    · exact List.all_eq_true.mp rfl
    · exact List.all_eq_true.mp rfl
  exact ⟨_, submitted, live, spelled, (handlers spelled .transform).trans rfl,
    (patterns (Key.text "name")).trans rfl, _, rfl, again ⟨0⟩ "css" (.obj .dict ⟨1⟩) ⟨1⟩ _ (by decide) rfl⟩

end AsyncImport
