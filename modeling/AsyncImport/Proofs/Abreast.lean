import AsyncImport.Plugin.Run
import AsyncImport.Proofs.Enrolment
import AsyncImport.Proofs.Likeness

/-!
# Edits in worlds that look alike

What a hook does on its own between two calls comes to the same in worlds that look alike, and leaves them
alike.
-/

namespace AsyncImport

open Edit

variable {Q : Ref .plugin → Prop} {P : Ref .future → Prop} {α β : Type}

/-! ## Mappings -/

namespace Assoc

variable {κ ν : Type} [DecidableEq κ] {m : Assoc κ ν} {k : κ} {x y : ν}

theorem mem_of_get? (known : m.get? k = some x) : x ∈ m.values := by
  obtain ⟨_, _, split, -⟩ := List.lookup_eq_some_iff.mp known
  simp [values, split]

theorem mem_insert (mem : y ∈ (m.insert k x).values) : y = x ∨ y ∈ m.values := by
  unfold insert values at mem
  unfold values
  generalize m.entries = es at mem ⊢
  induction es with
  | nil => simpa [insertEntry] using mem
  | cons e es ih =>
    by_cases same : e.1 = k
    · simp only [insertEntry, if_pos same, List.map_cons, List.mem_cons] at mem ⊢
      exact mem.imp_right .inr
    · simp only [insertEntry, if_neg same, List.map_cons, List.mem_cons] at mem ⊢
      rcases mem with first | later
      · exact .inr (.inl first)
      · exact (ih later).imp_right .inr

end Assoc

theorem Dict.futures_put {c : Dict} {k : Key} {label x : Value}
    (held : ∀ y ∈ Cell.parts .dict c, y.Futures P) (named : label.Futures P) (futures : x.Futures P) :
    ∀ y ∈ Cell.parts .dict (c.put k label x), y.Futures P := by
  have entry (e : Value × Value) (mem : e ∈ c.values) : e.1.Futures P ∧ e.2.Futures P :=
    ⟨held _ (List.mem_append_left _ (List.mem_map_of_mem mem)),
      held _ (List.mem_append_right _ (List.mem_map_of_mem mem))⟩
  have spelt : (((c.get? k).map Prod.fst).getD label).Futures P := by
    cases known : c.get? k with
    | none => exact named
    | some e => exact (entry e (Assoc.mem_of_get? known)).1
  have all (e : Value × Value) (mem : e ∈ (c.put k label x).values) : e.1.Futures P ∧ e.2.Futures P := by
    rcases Assoc.mem_insert mem with rfl | old
    · exact ⟨spelt, futures⟩
    · exact entry e old
  intro y mem
  rcases List.mem_append.mp mem with first | second
  · obtain ⟨e, inside, rfl⟩ := List.mem_map.mp first
    exact (all e inside).1
  · obtain ⟨e, inside, rfl⟩ := List.mem_map.mp second
    exact (all e inside).2

structure Draft.Held (P : Ref .future → Prop) (c : Draft) : Prop where
  name : c.name.Futures P
  path : c.path.Futures P
  content : c.content.Futures P
  deps : c.deps.Futures P
  plugins : c.plugins.Futures P

theorem Draft.held_iff {c : Draft} : (∀ x ∈ Cell.parts .draft c, x.Futures P) ↔ c.Held P := by
  show (∀ x ∈ [c.name, c.path, c.content, c.deps, c.plugins], x.Futures P) ↔ c.Held P
  simp only [List.forall_mem_cons, List.not_mem_nil, false_implies, implies_true, and_true]
  exact ⟨fun ⟨name, path, content, deps, plugins⟩ => ⟨name, path, content, deps, plugins⟩,
    fun held => ⟨held.name, held.path, held.content, held.deps, held.plugins⟩⟩

/-! ## Worlds abreast -/

def Heap.Resolves (h : Heap) (Q : Ref .plugin → Prop) (r : Ref .registry) : Prop :=
  ∃ p, Q p ∧ (h.get p).registry = .obj .registry r

/-- The two resolvers of a registry are both absent, or neither is. -/
def Heap.Paired (h : Heap) (Q : Ref .plugin → Prop) : Prop :=
  ∀ r, h.Resolves Q r → ((h.get r).resolver = .none ↔ (h.get r).directResolver = .none)

theorem Heap.Paired.congr {h g : Heap} (paired : h.Paired Q)
    (plugins : ∀ p : Ref .plugin, g.get p = h.get p)
    (registries : ∀ r : Ref .registry, g.get r = h.get r) : g.Paired Q := by
  rintro r ⟨p, mem, registry⟩
  rw [registries]
  exact paired r ⟨p, mem, plugins p ▸ registry⟩

structure World.Level (Q : Ref .plugin → Prop) (P : Ref .future → Prop) (w v : World) : Prop where
  alike : w.heap.Alike v.heap
  agree : w.heap.Agree v.heap = P
  paired : w.heap.Paired Q

namespace World.Level

variable {w v : World} {k : Kind}

theorem parts (level : w.Level Q P v) (r : Ref k) : ∀ x ∈ Cell.parts k (w.heap.get r), x.Futures P :=
  level.agree ▸ level.alike.parts k r

theorem alloc (level : w.Level Q P v) {c : Cell k} (seen : k.isSeen) (data : k.isData)
    (futures : ∀ x ∈ Cell.parts k c, x.Futures P) : (w.alloc k c).Level Q P (v.alloc k c) := by
  have future : Kind.future ≠ k := by
    rintro rfl
    cases seen
  have plugin : Kind.plugin ≠ k := by
    rintro rfl
    cases data
  have registry : Kind.registry ≠ k := by
    rintro rfl
    cases data
  refine ⟨level.alike.alloc seen (level.agree ▸ futures), ?_, ?_⟩
  · rw [← level.agree]
    exact Heap.Alike.agree_congr (Heap.table_setTable_ne _ _ future) (Heap.table_setTable_ne _ _ future)
  · exact level.paired.congr (fun _ => Heap.get_alloc_kind _ _ plugin)
      fun _ => Heap.get_alloc_kind _ _ registry

theorem set (level : w.Level Q P v) {r : Ref k} {c : Cell k} (seen : k.isSeen) (data : k.isData)
    (futures : ∀ x ∈ Cell.parts k c, x.Futures P) : (w.set r c).Level Q P (v.set r c) := by
  have future : Kind.future ≠ k := by
    rintro rfl
    cases seen
  have plugin : Kind.plugin ≠ k := by
    rintro rfl
    cases data
  have registry : Kind.registry ≠ k := by
    rintro rfl
    cases data
  refine ⟨level.alike.set seen (level.agree ▸ futures), ?_, ?_⟩
  · rw [← level.agree]
    exact Heap.Alike.agree_congr (Heap.table_setTable_ne _ _ future) (Heap.table_setTable_ne _ _ future)
  · exact level.paired.congr (fun _ => Heap.get_set_kind _ _ plugin)
      fun _ => Heap.get_set_kind _ _ registry

end World.Level

namespace Edit

variable {e : Edit α} {f : α → Edit β} {w v : World} {R : α → Prop} {S : β → Prop}

/-! ## Reading -/

def Sees (e : Edit α) (w v : World) : Prop := ∃ x, e w = (x, w) ∧ e v = (x, v)

theorem sees_pure (a : α) (w v : World) : (pure a : Edit α).Sees w v := ⟨_, rfl, rfl⟩

theorem sees_throw (c : Fault) (w v : World) : (throw c : Edit α).Sees w v := ⟨_, rfl, rfl⟩

theorem sees_bind (first : e.Sees w v) (next : ∀ a, e w = (.ok a, w) → (f a).Sees w v) :
    (e >>= f).Sees w v := by
  obtain ⟨c | a, here, there⟩ := first
  · exact ⟨.error c, by rw [run_bind, here], by rw [run_bind, there]⟩
  · obtain ⟨y, left, right⟩ := next a here
    exact ⟨y, by simpa only [run_bind, here] using left, by simpa only [run_bind, there] using right⟩

theorem sees_heap {f : Heap → Edit α} (same : f v.heap = f w.heap) (next : (f w.heap).Sees w v) :
    ((liftM heap : Edit Heap) >>= f).Sees w v := by
  obtain ⟨x, left, right⟩ := next
  exact ⟨x, left, (congrFun same v).trans right⟩

theorem sees_heap_bind {f : Heap → α → Edit β} (first : e.Sees w v)
    (same : ∀ a, e w = (.ok a, w) → f v.heap a = f w.heap a)
    (next : ∀ a, e w = (.ok a, w) → (f w.heap a).Sees w v) :
    ((liftM heap : Edit Heap) >>= fun h => e >>= f h).Sees w v := by
  obtain ⟨c | a, here, there⟩ := first
  · refine ⟨.error c, ?_, ?_⟩
    · show (e >>= f w.heap) w = _
      rw [run_bind, here]
    · show (e >>= f v.heap) v = _
      rw [run_bind, there]
  · obtain ⟨x, left, right⟩ := next a here
    refine ⟨x, ?_, ?_⟩
    · show (e >>= f w.heap) w = _
      simpa only [run_bind, here] using left
    · show (e >>= f v.heap) v = _
      simpa only [run_bind, there, same a here] using right

section

variable (level : w.Level Q P v) {k : Kind} {x : Value}

include level

theorem sees_read (r : Ref k) (seen : k.isSeen) : (Edit.read r).run.Sees w v :=
  ⟨_, rfl, congrArg (fun c => (Except.ok c, v)) (level.alike.get r seen)⟩

theorem sees_truthy (x : Value) : (truthy x).run.Sees w v :=
  sees_heap (by simp only [level.alike.truthy]) (sees_pure _ _ _)

theorem sees_items (x : Value) : (items x).run.Sees w v := by
  refine sees_heap (by simp only [level.alike.items?]) ?_
  dsimp only
  cases w.heap.items? x with
  | some _ => exact sees_pure _ _ _
  | none => exact sees_throw _ _ _

theorem sees_key (x : Value) : (key x).run.Sees w v := by
  refine sees_heap (by simp only [level.alike.key?]) ?_
  dsimp only
  cases w.heap.key? x with
  | some _ => exact sees_pure _ _ _
  | none => exact sees_throw _ _ _

theorem sees_shown (futures : x.Futures P) : (shown x).run.Sees w v := by
  refine sees_heap (by simp only [level.alike.hasText]) ?_
  dsimp only
  split
  · exact sees_heap (by simp only [level.alike.shown (level.agree ▸ futures)]) (sees_pure _ _ _)
  · exact sees_throw _ _ _

theorem sees_spoken (futures : x.Futures P) : (spoken x).run.Sees w v := by
  refine sees_heap (by simp only [level.alike.hasText]) ?_
  dsimp only
  split
  · exact sees_heap (by simp only [level.alike.spoken (level.agree ▸ futures)]) (sees_pure _ _ _)
  · exact sees_throw _ _ _

theorem sees_hook (futures : x.Futures P) : (Hook.parse x).run.Sees w v := by
  have told := sees_bind (sees_spoken level futures) fun s _ =>
    sees_throw (α := Hook) (Refusal.registration (.unknownHook s)).fault w v
  cases x with
  | hook k => exact sees_pure _ _ _
  | str s =>
    unfold Hook.parse
    dsimp only
    cases Hook.ofText? s with
    | some k => exact sees_pure _ _ _
    | none => exact sees_throw _ _ _
  | _ => exact told

end

/-! ## Changing -/

structure Even (Q : Ref .plugin → Prop) (P : Ref .future → Prop) (e : Edit α) (w v : World)
    (R : α → Prop) : Prop where
  result : (e v).1 = (e w).1
  level : (e w).2.Level Q P (e v).2
  holds : ∀ a, (e w).1 = .ok a → R a

theorem even_pure {a : α} (level : w.Level Q P v) (holds : R a) : (pure a : Edit α).Even Q P w v R where
  result := rfl
  level := level
  holds b is := by
    cases is
    exact holds

theorem even_throw {c : Fault} (level : w.Level Q P v) : (throw c : Edit α).Even Q P w v R where
  result := rfl
  level := level
  holds b never := by cases never

theorem Sees.even (level : w.Level Q P v) (sees : e.Sees w v) (holds : ∀ a, e w = (.ok a, w) → R a) :
    e.Even Q P w v R := by
  obtain ⟨x, here, there⟩ := sees
  refine ⟨by rw [here, there], by rwa [here, there], fun a is => holds a ?_⟩
  rw [here] at is
  rw [here]
  exact congrArg (·, w) is

theorem even_bind (first : e.Even Q P w v R)
    (next : ∀ a w v, R a → w.Level Q P v → (f a).Even Q P w v S) : (e >>= f).Even Q P w v S := by
  obtain ⟨result, level, holds⟩ := first
  rcases here : e w with ⟨c | a, u⟩ <;> rcases there : e v with ⟨d | b, z⟩ <;>
    simp only [here, there] at result level holds <;> cases result
  · exact ⟨by simp only [run_bind, here, there], by simpa only [run_bind, here, there] using level,
      fun a never => by simp [run_bind, here] at never⟩
  · have later := next a u z (holds a rfl) level
    exact ⟨by simpa only [run_bind, here, there] using later.result,
      by simpa only [run_bind, here, there] using later.level,
      by simpa only [run_bind, here] using later.holds⟩

theorem even_seen (level : w.Level Q P v) (sees : e.Sees w v)
    (next : ∀ a, e w = (.ok a, w) → (f a).Even Q P w v S) : (e >>= f).Even Q P w v S := by
  obtain ⟨c | a, here, there⟩ := sees
  · exact ⟨by simp only [run_bind, here, there], by simpa only [run_bind, here, there] using level,
      fun a never => by simp [run_bind, here] at never⟩
  · have later := next a here
    exact ⟨by simpa only [run_bind, here, there] using later.result,
      by simpa only [run_bind, here, there] using later.level,
      by simpa only [run_bind, here] using later.holds⟩

theorem even_forM {γ : Type} {f : γ → Edit PUnit} {cs : List γ} (level : w.Level Q P v)
    (each : ∀ c ∈ cs, ∀ w v, w.Level Q P v → (f c).Even Q P w v fun _ => True) :
    (cs.forM f).Even Q P w v fun _ => True := by
  induction cs generalizing w v with
  | nil => exact even_pure level trivial
  | cons c cs ih =>
    exact even_bind (each c List.mem_cons_self w v level) fun _ _ _ _ level =>
      ih level fun d mem => each d (List.mem_cons_of_mem _ mem)

section

variable (level : w.Level Q P v)

include level

theorem even_newList {xs : List Value} (futures : ∀ x ∈ xs, x.Futures P) :
    (newList xs).run.Even Q P w v fun x => x.Futures P where
  result := by simp only [Quiet.run_newList, level.alike.fresh .list rfl]
  level := level.alloc rfl rfl futures
  holds x is := by
    cases is
    trivial

theorem even_copyOfSequence {x : Value} :
    (copyOfSequence x).run.Even Q P w v fun x => x.Futures P := by
  have copied : (copyOfSequence x).run v = (newList ((w.heap.sequence? x).getD [])).run v := by
    rw [← level.alike.sequence?]
    rfl
  have new : (newList ((w.heap.sequence? x).getD [])).run.Even Q P w v fun x => x.Futures P := by
    refine even_newList level fun y mem => ?_
    cases out : w.heap.sequence? x with
    | none => simp [out] at mem
    | some xs =>
      rw [out] at mem
      exact level.agree ▸ level.alike.futures_sequence out y mem
  exact ⟨(congrArg Prod.fst copied).trans new.result, copied ▸ new.level, new.holds⟩

theorem even_copyIfAny {x : Value} : (copyIfAny x).run.Even Q P w v fun x => x.Futures P := by
  refine even_seen level (sees_truthy level x) fun b _ => ?_
  dsimp only
  split
  · refine even_seen level (sees_items level x) fun xs out => even_newList level ?_
    obtain ⟨ys, held, run⟩ | ⟨-, c, run⟩ := reads_items x w
    · cases out.symm.trans run
      exact level.agree ▸ level.alike.futures_items held
    · cases out.symm.trans run
  · exact even_newList level (by simp)

theorem even_formatOf {x : Value} (futures : x.Futures P) :
    (formatOf x).run.Even Q P w v fun x => x.Futures P := by
  have told := even_seen (S := fun x : Value => x.Futures P) level (sees_shown level futures) fun s _ =>
    even_throw (c := (Refusal.notAFormat s).fault) level
  cases x with
  | format f => exact even_pure level trivial
  | str s =>
    unfold formatOf
    dsimp only
    cases Format.ofText? s with
    | some f => exact even_pure level trivial
    | none => exact told
  | _ => exact told

theorem even_update (d : Ref .draft) (f : Draft → Draft)
    (futures : ∀ c : Draft, c.Held P → (f c).Held P) :
    (update d f).Even Q P w v fun _ => True where
  result := rfl
  level := by
    rw [run_update, run_update, level.alike.get d rfl]
    exact level.set rfl rfl (Draft.held_iff.mpr (futures _ (Draft.held_iff.mp (level.parts d))))
  holds _ _ := trivial

theorem even_alter (d : Ref .draft) (f : Draft → Draft) {data : Kind.isData .draft = true}
    {keeps : ∀ c, Cell.Keeps .draft c (f c)}
    (futures : ∀ c : Draft, c.Held P → (f c).Held P) :
    (alter d f data keeps).run.Even Q P w v fun _ => True := even_update level d f futures

end

end Edit

/-! ## Drafts -/

namespace Draft

variable {w v : World} {d : Ref .draft} {x label : Value}

theorem even_unfit (level : w.Level Q P v) (futures : x.Futures P) (cause : String → Refusal) :
    (do throw (cause ((← heap).typeName x)) : Quiet Unit).run.Even Q P w v fun _ => True :=
  (sees_heap (by simp only [level.alike.typeName_held (level.agree ▸ futures)])
    (sees_throw _ _ _)).even level fun _ _ => trivial

theorem even_setSource (level : w.Level Q P v) (futures : x.Futures P) :
    (setSource d x).run.Even Q P w v fun _ => True := by
  have unfit := even_unfit level futures fun t => .draft (.sourceType t)
  cases x with
  | str s =>
    unfold setSource
    exact even_alter level _ _ fun _ held => { held with content := futures }
  | _ => exact unfit

theorem even_setFactory (level : w.Level Q P v) (futures : x.Futures P) :
    (setFactory d x).run.Even Q P w v fun _ => True := by
  unfold setFactory
  split
  · exact even_alter level _ _ fun _ held => { held with content := futures }
  · exact even_unfit level futures fun t => .draft (.factoryType t)

theorem even_setCode (level : w.Level Q P v) (futures : x.Futures P) :
    (setCode d x).run.Even Q P w v fun _ => True :=
  even_alter level _ _ fun _ held => { held with content := futures }

theorem even_setAttribute (level : w.Level Q P v) (named : label.Futures P) (futures : x.Futures P) :
    (setAttribute d label x).run.Even Q P w v fun _ => True := by
  refine even_seen level (sees_read level d rfl) fun c _ => ?_
  dsimp only
  have unfit := even_throw (α := Unit) (c := Refusal.typeMismatch.fault) (R := fun _ => True) level
  cases c.attributes with
  | obj k r =>
    cases k
    case dict =>
      refine even_seen level (sees_key level label) fun k _ => ⟨rfl, ?_, fun _ _ => trivial⟩
      show (w.set r _).Level Q P (v.set r _)
      rw [level.alike.get r rfl]
      exact level.set rfl rfl (Dict.futures_put (level.parts r) named futures)
    all_goals exact unfit
  | _ => exact unfit

theorem even_setOption (level : w.Level Q P v) (named : label.Futures P) (futures : x.Futures P) :
    (setOption d label x).Even Q P w v fun _ => True := by
  unfold setOption
  split
  case h_1 => exact even_alter level _ _ fun _ held => { held with content := futures }
  case h_2 =>
    exact even_bind (even_copyOfSequence level) fun y w v new level =>
      even_alter level _ _ fun _ held => { held with deps := new }
  case h_3 =>
    exact even_bind (even_copyIfAny level) fun y w v new level =>
      even_alter level _ _ fun _ held => { held with plugins := new }
  case h_4 =>
    exact even_bind (even_formatOf level futures) fun y w v _ level =>
      even_alter level _ _ fun _ held => { held with }
  case h_5 =>
    split
    · exact even_update level _ _ fun _ held => { held with name := futures }
    · exact even_throw level
  case h_6 => exact even_alter level _ _ fun _ held => { held with path := futures }
  case h_7 => exact even_alter level _ _ fun _ held => { held with }
  case h_8 => exact even_setSource level futures
  case h_9 => exact even_setCode level futures
  case h_10 => exact even_setFactory level futures
  case h_11 => exact even_setAttribute level named futures

theorem even_configureFrom {options : Dict} (level : w.Level Q P v)
    (futures : ∀ x ∈ Cell.parts .dict options, x.Futures P) :
    (configureFrom d options).Even Q P w v fun _ => True :=
  even_forM level fun _ mem _ _ level => even_setOption level
    (futures _ (List.mem_append_left _ (List.mem_map_of_mem mem)))
    (futures _ (List.mem_append_right _ (List.mem_map_of_mem mem)))

theorem even_merge (level : w.Level Q P v) (ready : x.isAwaitable = false) :
    (merge d x).Even Q P w v fun _ => True := by
  have unfit : Even Q P (do
      throw (.handlerResult (← spoken (← read d).name) ((← heap).typeName x)) : Quiet (Ref .draft)).run
      w v fun _ => True := by
    refine even_seen level (sees_read level d rfl) fun c out => ?_
    cases out
    have named := level.parts d (w.heap.get d).name List.mem_cons_self
    refine even_seen level (sees_spoken level named) fun s _ => ?_
    refine (sees_heap ?_ (sees_throw _ _ _)).even level fun _ _ => trivial
    have same : v.heap.typeName x = w.heap.typeName x := level.alike.typeName fun f is => by
      subst is
      cases ready
    simp only [same]
  cases x with
  | none => exact even_pure level trivial
  | obj k r =>
    cases k
    case draft => exact even_pure level trivial
    case dict =>
      refine even_seen level (sees_read level r rfl) fun options out => ?_
      cases out
      exact even_bind (even_configureFrom level (level.parts r)) fun _ _ _ _ level =>
        even_pure level trivial
    all_goals exact unfit
  | _ => exact unfit

end Draft
end AsyncImport
