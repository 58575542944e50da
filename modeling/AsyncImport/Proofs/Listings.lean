import AsyncImport.Proofs.Enrolment
import AsyncImport.Proofs.FirstOccurrences

/-!
# What definitions list

A definition is a mapping. Under each key that denotes a hook it lists handlers, and under `match` it maps
rules to patterns. Where several keys denote one hook, the last of them counts.
-/

namespace AsyncImport

namespace Heap

structure WellKeyed (h : Heap) : Prop where
  distinct : ∀ r : Ref .dict, (h.get r).keys.Nodup
  filed : ∀ r : Ref .dict, ∀ e ∈ (h.get r).entries, h.key? e.2.1 = some e.1

namespace WellKeyed

variable {h g : Heap} (keyed : h.WellKeyed)

include keyed

theorem congr (same : h.SameData g) : g.WellKeyed := by
  refine ⟨fun r => ?_, fun r e mem => ?_⟩
  · rw [same.get_dict]
    exact keyed.distinct r
  · rw [same.get_dict] at mem
    rw [same.key?_eq]
    exact keyed.filed r e mem

theorem hashable : h.Hashable := by
  intro r e held
  obtain ⟨c, mem, rfl⟩ := List.mem_map.mp (show e ∈ (h.get r).entries.map Prod.snd from held)
  rw [keyed.filed r c mem]
  rfl

end WellKeyed
end Heap

namespace Definition

variable {h g : Heap} {v : Value} {d : Definition}

def entries (h : Heap) (v : Value) : List (Value × Value) := ((h.dict? v).getD {}).items

def listed (h : Heap) (v : Value) (k : Hook) : List (List Handler) :=
  ((entries h v).filter fun e => Hook.ofValue? e.1 = some k).filterMap fun e =>
    Handler.listOfValue? h e.2

def patternsIn (h : Heap) (rules : Value) (κ : Key) : List (List String) :=
  ((entries h rules).filter fun e => h.key? e.1 = some κ).filterMap fun e => h.patterns? e.2

def ruled (h : Heap) (v : Value) (κ : Key) : List (List String) :=
  match ((entries h v).filter fun e => e.1 = .str "match").getLast? with
  | some e => patternsIn h e.2 κ
  | none => []

def read? (h : Heap) (v : Value) : Option Definition :=
  if h.truthy v then ofValue? h v else some {}

theorem nodup_keys (keyed : h.WellKeyed) (v : Value) :
    ((entries h v).map fun e => h.key? e.1).Nodup := by
  unfold entries Heap.dict?
  split
  · next r =>
    have keys : ((h.get r).items.map fun e => h.key? e.1) = (h.get r).keys.map some := by
      unfold Dict.items Assoc.values Assoc.keys
      simp only [List.map_map]
      exact List.map_congr_left fun e mem => keyed.filed r e mem
    rw [Option.getD_some, keys]
    exact (keyed.distinct r).map fun _ _ => Option.some.inj
  · exact List.nodup_nil

theorem entries_of_falsy (falsy : h.truthy v = false) : entries h v = [] := by
  unfold entries Heap.dict?
  split
  · next r =>
    have size : (h.get r).entries.length = 0 := by
      simpa [Heap.truthy, Heap.length?, Assoc.size] using falsy
    simp [Dict.items, Assoc.values, List.length_eq_zero_iff.mp size]
  · rfl

theorem read?_eq (same : h.SameData g) (mapping : (h.dict? v).isSome = true) :
    read? g v = read? h v := by
  unfold read?
  rw [same.definition_eq]
  unfold Heap.dict? at mapping
  split at mapping
  · next r =>
    have truthy : g.truthy (.obj .dict r) = h.truthy (.obj .dict r) := by
      simp [Heap.truthy, Heap.length?, same.get_dict]
    rw [truthy]
  · cases mapping

theorem extend_cases {c : Definition} {label : Value} (extended : d.extend? h label v = some c) :
    (label = .str "match" ∧ ∃ es rules, h.dict? v = some es ∧ rules? h es = some rules ∧
      c = { d with rules := rules }) ∨
    label ≠ .str "match" ∧ ∃ ts k, Handler.listOfValue? h v = some ts ∧
      Hook.ofValue? label = some k ∧ c = { d with handlers := d.handlers.insert k ts } := by
  unfold extend? at extended
  split at extended
  · next is =>
    obtain ⟨es, mapping, rest⟩ := Option.bind_eq_some_iff.mp extended
    obtain ⟨rules, declared, ends⟩ := Option.bind_eq_some_iff.mp rest
    cases ends
    exact .inl ⟨is, es, rules, mapping, declared, rfl⟩
  · next other =>
    obtain ⟨ts, read, rest⟩ := Option.bind_eq_some_iff.mp extended
    obtain ⟨k, denoted, ends⟩ := Option.bind_eq_some_iff.mp rest
    cases ends
    exact .inr ⟨other, ts, k, read, denoted, rfl⟩

/-! ## Handlers -/

theorem handlers_of_entries {es : List (Value × Value)} {c : Definition}
    (folded : es.foldlM (fun d e => d.extend? h e.1 e.2) c = some d) (k : Hook) :
    d.handlers.get? k = (((es.filter fun e => Hook.ofValue? e.1 = some k).filterMap fun e =>
      Handler.listOfValue? h e.2).getLast?).or (c.handlers.get? k) := by
  induction es generalizing c with
  | nil =>
    cases folded
    rfl
  | cons e es ih =>
    obtain ⟨b, first, rest⟩ := Option.bind_eq_some_iff.mp folded
    rw [ih rest]
    obtain ⟨is, _, _, -, -, rfl⟩ | ⟨-, ts, l, read, denoted, rfl⟩ := extend_cases first
    · have other : Hook.ofValue? e.1 ≠ some k := by
        rw [is]
        cases k <;> decide
      rw [List.filter_cons_of_neg (by simpa using other)]
    · by_cases same : l = k
      · subst same
        rw [List.filter_cons_of_pos (by simpa using denoted)]
        simp only [List.filterMap_cons, read, List.getLast?_cons]
        cases List.getLast? _ <;> simp
      · rw [List.filter_cons_of_neg (by simpa [denoted] using same)]
        dsimp only
        rw [Assoc.get?_insert_ne _ _ (Ne.symm same)]

/-- For each hook, a definition comes to what the last key that denotes it lists. -/
theorem handlers_of_read (read : read? h v = some d) (k : Hook) :
    d.handlers.get? k = (listed h v k).getLast? := by
  unfold read? at read
  split at read
  · obtain ⟨es, mapping, folded⟩ := Option.bind_eq_some_iff.mp read
    rw [handlers_of_entries folded k]
    simp [listed, entries, mapping]
  · next falsy =>
    cases read
    simp [listed, entries_of_falsy (by simpa using falsy)]

theorem distinct_of_read (read : read? h v = some d) : d.handlers.keys.Nodup := by
  unfold read? at read
  split at read
  · obtain ⟨es, -, folded⟩ := Option.bind_eq_some_iff.mp read
    have start : ({} : Definition).handlers.keys.Nodup := List.nodup_nil
    generalize es.items = es, ({} : Definition) = c at folded start
    induction es generalizing c with
    | nil => exact Option.some.inj folded ▸ start
    | cons e es ih =>
      obtain ⟨b, first, rest⟩ := Option.bind_eq_some_iff.mp folded
      refine ih b rest ?_
      obtain ⟨-, _, _, -, -, rfl⟩ | ⟨-, ts, k, -, -, rfl⟩ := extend_cases first
      · exact start
      · exact Assoc.nodup_insert start k ts
  · exact Option.some.inj read ▸ List.nodup_nil

/-! ## Rules -/

theorem rules_of_entries {es : List (Value × Value)} {c : Definition}
    (folded : es.foldlM (fun d e => d.extend? h e.1 e.2) c = some d) :
    match (es.filter fun e => e.1 = .str "match").getLast? with
    | some e => ∃ entries, h.dict? e.2 = some entries ∧ rules? h entries = some d.rules
    | none => d.rules = c.rules := by
  induction es generalizing c with
  | nil =>
    cases folded
    rfl
  | cons e es ih =>
    obtain ⟨b, first, rest⟩ := Option.bind_eq_some_iff.mp folded
    have ih := ih rest
    obtain ⟨is, entries, rules, mapping, declared, rfl⟩ | ⟨other, ts, l, -, -, rfl⟩ :=
      extend_cases first
    · rw [List.filter_cons_of_pos (by simpa using is), List.getLast?_cons]
      cases known : (es.filter fun e => e.1 = .str "match").getLast? with
      | some e => simpa [known] using ih
      | none =>
        rw [known] at ih
        exact ⟨entries, mapping, ih ▸ declared⟩
    · rw [List.filter_cons_of_neg (by simpa using other)]
      exact ih

/-- The rules of a definition are those of one mapping, or there are none. -/
theorem rules_of_read (read : read? h v = some d) :
    (∃ rules entries, ruled h v = patternsIn h rules ∧ h.dict? rules = some entries ∧
      rules? h entries = some d.rules) ∨ ruled h v = (fun _ => []) ∧ d.rules = [] := by
  unfold read? at read
  split at read
  · obtain ⟨es, mapping, folded⟩ := Option.bind_eq_some_iff.mp read
    have rules := rules_of_entries folded
    have same : Definition.entries h v = es.items := by simp [Definition.entries, mapping]
    cases last : (es.items.filter fun e => e.1 = .str "match").getLast? with
    | some e =>
      rw [last] at rules
      obtain ⟨entries, mapping, declared⟩ := rules
      exact .inl ⟨e.2, entries, by funext κ; simp only [ruled, same, last], mapping, declared⟩
    | none =>
      rw [last] at rules
      exact .inr ⟨by funext κ; simp only [ruled, same, last], rules⟩
  · next falsy =>
    cases read
    have nothing := entries_of_falsy (v := v) (by simpa using falsy)
    exact .inr ⟨by funext κ; simp [ruled, nothing], rfl⟩

theorem patternsIn_of_rules {rules : Value} {entries : Dict} {rs : List (Value × List String)}
    (mapping : h.dict? rules = some entries) (declared : rules? h entries = some rs) (κ : Key) :
    patternsIn h rules κ =
      rs.flatMap fun rule => if h.key? rule.1 = some κ then [rule.2] else [] := by
  unfold patternsIn Definition.entries
  rw [mapping, Option.getD_some]
  unfold rules? at declared
  generalize entries.items = es at *
  induction es generalizing rs with
  | nil =>
    cases declared
    rfl
  | cons e es ih =>
    rw [List.mapM_cons] at declared
    obtain ⟨rule, first, rest⟩ := Option.bind_eq_some_iff.mp declared
    obtain ⟨later, known, ends⟩ := Option.bind_eq_some_iff.mp rest
    obtain ⟨ps, read, named⟩ := Option.bind_eq_some_iff.mp first
    cases named
    cases ends
    rw [List.flatMap_cons, ← ih known]
    by_cases same : h.key? e.1 = some κ
    · rw [List.filter_cons_of_pos (by simpa using same), if_pos same]
      simp only [List.filterMap_cons, read, List.singleton_append]
    · rw [List.filter_cons_of_neg (by simpa using same), if_neg same]
      rfl

theorem ruled_of_read (read : read? h v = some d) (κ : Key) :
    ruled h v κ =
      d.rules.flatMap fun rule => if h.key? rule.1 = some κ then [rule.2] else [] := by
  obtain ⟨rules, entries, same, mapping, declared⟩ | ⟨same, nothing⟩ := rules_of_read read
  · rw [same, patternsIn_of_rules mapping declared]
  · rw [same, nothing]
    rfl

theorem rules_distinct (keyed : h.WellKeyed) (read : read? h v = some d) :
    (d.rules.map fun rule => h.key? rule.1).Nodup := by
  obtain ⟨rules, entries, -, mapping, declared⟩ | ⟨-, nothing⟩ := rules_of_read read
  · have labels := nodup_keys keyed rules
    rw [Definition.entries, mapping, Option.getD_some] at labels
    have same : d.rules.map (fun rule => h.key? rule.1) = entries.items.map fun e => h.key? e.1 := by
      have firsts := congrArg (List.map h.key?) (labels_of_rules declared)
      simpa [Dict.labels, Dict.items, Function.comp_def] using firsts
    rwa [same]
  · rw [nothing]
    exact List.nodup_nil

theorem storable_of_read (hashable : h.Hashable) (read : read? h v = some d) : d.Storable h := by
  unfold read? at read
  split at read
  · exact storable_ofValue hashable read
  · exact Option.some.inj read ▸ Registry.storable_empty h

end Definition
end AsyncImport
