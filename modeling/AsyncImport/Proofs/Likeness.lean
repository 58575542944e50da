import AsyncImport.Proofs.Edits

/-!
# Worlds that look alike

Two worlds can differ in what only the scheduler, the loaders and the buses go by, and a hook finds the
same in both. A future is seen wherever it stands in something that is shown or compared, so futures that
are held in such a place have to look the same. Nothing is asked of the others.
-/

namespace AsyncImport

def Kind.isSeen : Kind → Bool
  | .bus | .loader | .delegate | .decorator | .rules | .ignoreRules | .future | .coroutine
  | .reading => false
  | _ => true

def Value.Futures (P : Ref .future → Prop) : Value → Prop
  | .obj .future f => P f
  | .source v | .factory v | .code v | .linked v | .registered v => v.Futures P
  | .handler v x | .failed v x => v.Futures P ∧ x.Futures P
  | _ => True

def Cell.parts : (k : Kind) → Cell k → List Value
  | .list, c => c
  | .tuple, c => c
  | .dict, c => c.labels ++ c.items.map Prod.snd
  | .draft, c => [c.name, c.path, c.content, c.deps, c.plugins]
  | .module, c => [c.format, c.deps]
  | .plugin, c => c.name :: c.rules.values.map Rule.name
  | .fanout, c => [c.hook]
  | .settings, c => [c.pluginDelimiter, c.logLevel, c.logFormat, c.ignore]
  | .field, c => [c.type, c.default, c.description, c.min, c.max, c.choices]
  | _, _ => []

namespace Heap

def Agree (h g : Heap) (f : Ref .future) : Prop :=
  g.typeName (.obj .future f) = h.typeName (.obj .future f) ∧
    (g.get f).status.isDone = (h.get f).status.isDone

/-- Two heaps hold the same, as far as it is seen. -/
structure Alike (h g : Heap) : Prop where
  table : ∀ k : Kind, k.isSeen → g.table k = h.table k
  parts : ∀ (k : Kind) (r : Ref k), ∀ x ∈ Cell.parts k (h.get r), x.Futures (h.Agree g)

theorem futures_agree (h : Heap) (x : Value) : x.Futures (h.Agree h) := by
  induction x with
  | obj k r =>
    cases k
    case future => exact ⟨rfl, rfl⟩
    all_goals trivial
  | source v ih | factory v ih | code v ih | linked v ih | registered v ih => exact ih
  | handler v y ihv ihy | failed v y ihv ihy => exact ⟨ihv, ihy⟩
  | _ => trivial

theorem Alike.refl (h : Heap) : h.Alike h where
  table _ _ := rfl
  parts _ _ x _ := h.futures_agree x

variable {h g : Heap} {k : Kind} {x y : Value}

namespace Alike

theorem get (alike : h.Alike g) (r : Ref k) (seen : k.isSeen) : g.get r = h.get r := by
  unfold Heap.get
  rw [alike.table k seen]

theorem fresh (alike : h.Alike g) (k : Kind) (seen : k.isSeen) : g.fresh k = h.fresh k := by
  unfold Heap.fresh
  rw [alike.table k seen]

/-! ## What is seen of values -/

theorem typeName (alike : h.Alike g) (future : ∀ f, x = .obj .future f → h.Agree g f) :
    g.typeName x = h.typeName x := by
  cases x with
  | obj k r =>
    cases k
    case failure =>
      show (g.get r).kind.text = (h.get r).kind.text
      rw [alike.get r rfl]
    case future => exact (future r rfl).1
    all_goals rfl
  | _ => rfl

theorem typeName_held (alike : h.Alike g) (futures : x.Futures (h.Agree g)) :
    g.typeName x = h.typeName x := by
  refine alike.typeName ?_
  rintro f rfl
  exact futures

theorem dataWith {object other : (k : Kind) → Ref k → Data}
    (same : ∀ k (r : Ref k), (Value.obj k r).Futures (h.Agree g) → other k r = object k r)
    (futures : x.Futures (h.Agree g)) : g.dataWith other x = h.dataWith object x := by
  induction x with
  | obj k r => exact same k r futures
  | source v ih | factory v ih | code v ih | linked v ih =>
    exact congrArg (fun d => Data.record _ _ [d]) (ih futures)
  | registered v ih => exact congrArg (fun d => Data.record _ _ [d, _]) (ih futures)
  | handler v y ihv ihy | failed v y ihv ihy =>
    exact congrArg₂ (fun d e => Data.record _ _ [d, e]) (ihv futures.1) (ihy futures.2)
  | _ => rfl

theorem inner {v : Value} (futures : x.Futures (h.Agree g)) (is : inner? x = some v) :
    v.Futures (h.Agree g) := by
  cases x <;> cases is
  case code => exact futures
  all_goals trivial

theorem objectData (alike : h.Alike g) {value other : Value → Data}
    (same : ∀ x, x.Futures (h.Agree g) → other x = value x) (r : Ref k)
    (futures : (Value.obj k r).Futures (h.Agree g)) :
    g.objectData other k r = h.objectData value k r := by
  have within := alike.parts k r
  cases k
  case list =>
    simp only [Heap.objectData, alike.get r rfl]
    exact congrArg Data.list (List.map_congr_left fun x mem => same x (within x mem))
  case tuple =>
    simp only [Heap.objectData, alike.get r rfl]
    exact congrArg Data.tuple (List.map_congr_left fun x mem => same x (within x mem))
  case dict =>
    have labels : (h.get r).labels.map other = (h.get r).labels.map value :=
      List.map_congr_left fun x mem => same x (within x (List.mem_append_left _ mem))
    have items : (h.get r).items.map (fun e => other e.2) = (h.get r).items.map fun e => value e.2 :=
      List.map_congr_left fun e mem =>
        same e.2 (within _ (List.mem_append_right _ (List.mem_map_of_mem mem)))
    simp only [Heap.objectData, alike.get r rfl, labels, items]
  case draft =>
    simp only [Cell.parts, List.forall_mem_cons] at within
    obtain ⟨name, path, content, deps, -⟩ := within
    simp only [Heap.objectData, alike.get r rfl, same _ name, same _ path, same _ deps,
      alike.typeName_held content, alike.typeName_held futures]
  case module =>
    simp only [Cell.parts, List.forall_mem_cons] at within
    obtain ⟨format, deps, -⟩ := within
    have shown : other ((inner? (h.get r).format).getD .none) =
        value ((inner? (h.get r).format).getD .none) := by
      refine same _ ?_
      cases is : inner? (h.get r).format with
      | none => trivial
      | some v => exact inner format is
    simp only [Heap.objectData, alike.get r rfl, shown, same _ deps, alike.typeName_held futures]
  case plugin =>
    simp only [Cell.parts, List.forall_mem_cons] at within
    obtain ⟨name, rules⟩ := within
    have named : (h.get r).rules.values.map (fun rule => other rule.name) =
        (h.get r).rules.values.map fun rule => value rule.name :=
      List.map_congr_left fun rule mem => same _ (rules _ (List.mem_map_of_mem mem))
    simp only [Heap.objectData, alike.get r rfl, same _ name, named, alike.typeName_held futures]
  case manager =>
    simp only [Heap.objectData, alike.get r rfl, alike.get (h.get r).plugins rfl, alike.typeName_held futures]
  case settings =>
    simp only [Heap.objectData, alike.get r rfl]
    exact congrArg (Data.record _ _) (List.map_congr_left fun x mem => same x (within x mem))
  case field =>
    simp only [Heap.objectData, alike.get r rfl]
    exact congrArg (Data.record _ _) (List.map_congr_left fun x mem => same x (within x mem))
  case future => simp only [Heap.objectData, futures.2, alike.typeName_held (x := .obj .future r) futures]
  case failure | matcher => simp only [Heap.objectData, alike.get r rfl, alike.typeName_held futures]
  all_goals simp only [Heap.objectData, alike.typeName_held futures]

theorem dataFrom (alike : h.Alike g) (n : Nat) (path : List Identity)
    (futures : x.Futures (h.Agree g)) : g.dataFrom n path x = h.dataFrom n path x := by
  induction n generalizing path x with
  | zero => rfl
  | succ n ih =>
    refine dataWith (fun k r here => ?_) futures
    split
    · rfl
    · exact alike.objectData (fun y within => ih _ within) r here

theorem depth (alike : h.Alike g) : g.depth = h.depth := by
  have size (k : Kind) (seen : k.isSeen) : (g.table k).size = (h.table k).size := by
    rw [alike.table k seen]
  unfold Heap.depth
  rw [show g.lists.size = h.lists.size from size .list rfl,
    show g.tuples.size = h.tuples.size from size .tuple rfl,
    show g.dicts.size = h.dicts.size from size .dict rfl,
    show g.drafts.size = h.drafts.size from size .draft rfl,
    show g.modules.size = h.modules.size from size .module rfl,
    show g.plugins.size = h.plugins.size from size .plugin rfl,
    show g.matchers.size = h.matchers.size from size .matcher rfl,
    show g.settings.size = h.settings.size from size .settings rfl,
    show g.fields.size = h.fields.size from size .field rfl]

theorem data (alike : h.Alike g) (futures : x.Futures (h.Agree g)) : g.data x = h.data x := by
  unfold Heap.data
  rw [alike.depth, alike.dataFrom _ _ futures]

theorem shown (alike : h.Alike g) (futures : x.Futures (h.Agree g)) : g.shown x = h.shown x := by
  unfold Heap.shown
  rw [alike.data futures]

theorem spoken (alike : h.Alike g) (futures : x.Futures (h.Agree g)) : g.spoken x = h.spoken x := by
  unfold Heap.spoken
  rw [alike.data futures]

theorem textParts? (alike : h.Alike g) (r : Ref k) : g.textParts? k r = h.textParts? k r := by
  cases k
  case list | tuple | dict | draft | module | plugin | settings | field =>
    simp only [Heap.textParts?, alike.get r rfl]
  all_goals rfl

theorem hasTextFrom (alike : h.Alike g) (n : Nat) (path : List Identity) :
    g.hasTextFrom n path = h.hasTextFrom n path := by
  induction n generalizing path with
  | zero => rfl
  | succ n ih =>
    unfold Heap.hasTextFrom
    congr 1
    funext k r
    rw [alike.textParts? r, ih]

theorem hasText (alike : h.Alike g) (x : Value) : g.hasText x = h.hasText x := by
  unfold Heap.hasText
  rw [alike.depth, alike.hasTextFrom]

theorem among (alike : h.Alike g) {xs : List Value} (futures : x.Futures (h.Agree g))
    (each : ∀ y ∈ xs, y.Futures (h.Agree g)) : g.among x xs = h.among x xs := by
  unfold Heap.among Heap.same
  rw [Bool.eq_iff_iff, List.any_eq_true, List.any_eq_true]
  refine exists_congr fun y => and_congr_right fun mem => ?_
  rw [alike.data futures, alike.data (each y mem)]

/-! ## What is asked of values -/

theorem eq_unseen (alike : h.Alike g) : g =
    { h with
      buses := g.buses, loaders := g.loaders, delegates := g.delegates, decorators := g.decorators
      rules := g.rules, ignoreRules := g.ignoreRules, futures := g.futures
      coroutines := g.coroutines, readings := g.readings } := by
  have same := alike.table
  obtain ⟨⟩ := g
  obtain ⟨⟩ := h
  simp only [Heap.mk.injEq, true_and, and_true]
  exact ⟨same .list rfl, same .tuple rfl, same .dict rfl, same .draft rfl, same .module rfl,
    same .plugin rfl, same .registry rfl, same .fanout rfl, same .matcher rfl, same .pipeline rfl,
    same .store rfl, same .manager rfl, same .settings rfl, same .field rfl, same .failure rfl⟩

theorem length? (alike : h.Alike g) (x : Value) : g.length? x = h.length? x := by
  rw [alike.eq_unseen]
  cases x with
  | obj k r => cases k <;> rfl
  | _ => rfl

theorem truthy (alike : h.Alike g) (x : Value) : g.truthy x = h.truthy x := by
  unfold Heap.truthy
  rw [alike.length? x]

theorem items? (alike : h.Alike g) (x : Value) : g.items? x = h.items? x := by
  rw [alike.eq_unseen]
  cases x with
  | obj k r => cases k <;> rfl
  | _ => rfl

theorem sequence? (alike : h.Alike g) (x : Value) : g.sequence? x = h.sequence? x := by
  rw [alike.eq_unseen]
  cases x with
  | obj k r => cases k <;> rfl
  | _ => rfl

theorem key? (alike : h.Alike g) (x : Value) : g.key? x = h.key? x :=
  key?_of_tuples (alike.table .tuple rfl) x

theorem futures_items (alike : h.Alike g) {xs : List Value} (out : h.items? x = some xs) :
    ∀ y ∈ xs, y.Futures (h.Agree g) := by
  intro y mem
  cases x with
  | str s =>
    cases out
    obtain ⟨c, -, rfl⟩ := List.mem_map.mp mem
    trivial
  | bytes b =>
    cases out
    obtain ⟨c, -, rfl⟩ := List.mem_map.mp mem
    trivial
  | obj k r =>
    cases k
    case list =>
      cases out
      exact alike.parts .list r y mem
    case tuple =>
      cases out
      exact alike.parts .tuple r y mem
    case dict =>
      cases out
      exact alike.parts .dict r y (List.mem_append_left _ mem)
    all_goals cases out
  | _ => cases out

theorem futures_sequence (alike : h.Alike g) {xs : List Value} (out : h.sequence? x = some xs) :
    ∀ y ∈ xs, y.Futures (h.Agree g) := by
  refine alike.futures_items (x := x) ?_
  cases x with
  | obj k r => cases k <;> first | exact out | cases out
  | _ => cases out

/-! ## Changes -/

theorem agree_congr {i j : Heap} (left : i.table .future = h.table .future)
    (right : j.table .future = g.table .future) : i.Agree j = h.Agree g := by
  funext f
  have left : i.get f = h.get f := by
    unfold Heap.get
    rw [left]
  have right : j.get f = g.get f := by
    unfold Heap.get
    rw [right]
  simp only [Agree, Heap.typeName, left, right]

theorem alloc (alike : h.Alike g) {c : Cell k} (seen : k.isSeen)
    (futures : ∀ x ∈ Cell.parts k c, x.Futures (h.Agree g)) : (h.alloc k c).Alike (g.alloc k c) := by
  have future : Kind.future ≠ k := by
    rintro rfl
    cases seen
  have agree : (h.alloc k c).Agree (g.alloc k c) = h.Agree g :=
    agree_congr (table_setTable_ne _ _ future) (table_setTable_ne _ _ future)
  refine ⟨fun l seen => ?_, fun l r => ?_⟩
  · by_cases same : l = k
    · subst same
      unfold Heap.alloc
      rw [table_setTable, table_setTable, alike.table l seen]
    · unfold Heap.alloc
      rw [table_setTable_ne _ _ same, table_setTable_ne _ _ same, alike.table l seen]
  · rw [agree]
    by_cases same : l = k
    · subst same
      by_cases new : r = h.fresh l
      · rw [new, get_alloc_fresh]
        exact futures
      · by_cases live : h.Live r
        · rw [get_alloc_live _ _ live]
          exact alike.parts l r
        · rw [get_not_live fun alive => (live_alloc.mp alive).elim live new, ← get_not_live live]
          exact alike.parts l r
    · rw [get_alloc_kind _ _ same]
      exact alike.parts l r

theorem set (alike : h.Alike g) {r : Ref k} {c : Cell k} (seen : k.isSeen)
    (futures : ∀ x ∈ Cell.parts k c, x.Futures (h.Agree g)) : (h.set r c).Alike (g.set r c) := by
  have future : Kind.future ≠ k := by
    rintro rfl
    cases seen
  have agree : (h.set r c).Agree (g.set r c) = h.Agree g :=
    agree_congr (table_setTable_ne _ _ future) (table_setTable_ne _ _ future)
  refine ⟨fun l seen => ?_, fun l s => ?_⟩
  · by_cases same : l = k
    · subst same
      unfold Heap.set
      rw [table_setTable, table_setTable, alike.table l seen]
    · unfold Heap.set
      rw [table_setTable_ne _ _ same, table_setTable_ne _ _ same, alike.table l seen]
  · rw [agree]
    by_cases same : l = k
    · subst same
      by_cases here : s = r
      · subst here
        by_cases live : h.Live s
        · rw [get_set_self _ _ live]
          exact futures
        · rw [get_not_live fun alive => live (live_set.mp alive), ← get_not_live live]
          exact alike.parts l s
      · rw [get_set_ne _ _ here]
        exact alike.parts l s
    · rw [get_set_kind _ _ same]
      exact alike.parts l s

end Alike
end Heap
end AsyncImport
