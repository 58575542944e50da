import AsyncImport.Plugin.Registration
import AsyncImport.Proofs.Edits

/-!
# What a declaration says

A declaration is read before anything is stored. To read is to find what a function of the heap finds,
or to fail, and changes nothing either way. What handlers, patterns and whole definitions say lies in
lists, tuples and mappings, so that nothing but a change to these makes them say something else.
-/

namespace AsyncImport

namespace Edit

variable {α β : Type}

def Reads (e : Edit α) (find : Heap → Option α) : Prop :=
  ∀ w, (∃ a, find w.heap = some a ∧ e w = (.ok a, w)) ∨
    find w.heap = none ∧ ∃ f, e w = (.error f, w)

variable {e : Edit α} {find : Heap → Option α} {w : World}

theorem Reads.found {a : α} (reads : e.Reads find) (found : find w.heap = some a) :
    e w = (.ok a, w) := by
  rcases reads w with ⟨b, known, run⟩ | ⟨missing, -⟩ <;> simp_all

theorem Reads.missing (reads : e.Reads find) (missing : find w.heap = none) :
    ∃ f, e w = (.error f, w) := by
  rcases reads w with ⟨b, known, -⟩ | ⟨-, run⟩
  · simp_all
  · exact run

theorem reads_pure (a : α) : (pure a : Edit α).Reads fun _ => some a :=
  fun _ => .inl ⟨a, rfl, rfl⟩

theorem reads_throw (f : Fault) : (throw f : Edit α).Reads fun _ => none :=
  fun _ => .inr ⟨rfl, f, rfl⟩

theorem reads_bind {f : α → Edit β} {next : α → Heap → Option β} (first : e.Reads find)
    (later : ∀ a, (f a).Reads (next a)) :
    (e >>= f).Reads fun h => (find h).bind fun a => next a h := by
  intro w
  simp only [run_bind]
  rcases first w with ⟨a, found, run⟩ | ⟨missing, g, run⟩
  · simpa only [found, run, Option.bind_some] using later a w
  · exact .inr ⟨by simp only [missing, Option.bind_none], g, by simp only [run]⟩

theorem reads_map (f : α → β) (reads : e.Reads find) : (f <$> e).Reads fun h => (find h).map f := by
  intro w
  simp only [run_map]
  rcases reads w with ⟨a, found, run⟩ | ⟨missing, g, run⟩
  · exact .inl ⟨f a, by simp only [found, Option.map_some], by simp only [run]⟩
  · exact .inr ⟨by simp only [missing, Option.map_none], g, by simp only [run]⟩

theorem reads_heap {f : Heap → Edit β} (next : Heap → Heap → Option β)
    (each : ∀ h, (f h).Reads (next h)) :
    ((liftM heap : Edit Heap) >>= f).Reads fun h => next h h := fun w => each w.heap w

theorem reads_refused (reads : e.Reads find) (g : α → Fault) :
    (e >>= fun s => throw (g s) : Edit β).Reads fun _ => none := by
  intro w
  rcases reads w with ⟨s, -, run⟩ | ⟨-, f, run⟩
  · exact .inr ⟨rfl, g s, by simp only [run_bind, run, run_throw]⟩
  · exact .inr ⟨rfl, f, by simp only [run_bind, run]⟩

theorem reads_mapM {γ : Type} {f : γ → Edit α} {next : γ → Heap → Option α}
    (each : ∀ c, (f c).Reads (next c)) (cs : List γ) :
    (cs.mapM f).Reads fun h => cs.mapM fun c => next c h := by
  induction cs with
  | nil => exact reads_pure []
  | cons c cs ih =>
    simp only [List.mapM_cons]
    exact reads_bind (each c) fun a => reads_bind ih fun as => reads_pure (a :: as)

theorem reads_foldlM {γ : Type} {f : α → γ → Edit α} {next : α → γ → Heap → Option α}
    (each : ∀ a c, (f a c).Reads (next a c)) (cs : List γ) (a : α) :
    (cs.foldlM f a).Reads fun h => cs.foldlM (fun a c => next a c h) a := by
  induction cs generalizing a with
  | nil => exact reads_pure a
  | cons c cs ih =>
    simp only [List.foldlM_cons]
    exact reads_bind (each a c) fun b => ih b

theorem reads_forM {γ : Type} {f : γ → Edit PUnit} {next : γ → Heap → Option PUnit}
    (each : ∀ c, (f c).Reads (next c)) (cs : List γ) :
    (cs.forM f).Reads fun h => cs.forM fun c => next c h := by
  induction cs with
  | nil => exact reads_pure PUnit.unit
  | cons c cs ih => exact reads_bind (each c) fun _ => ih

theorem isSome_of_forM {γ : Type} {f : γ → Option PUnit} {cs : List γ} {u : PUnit}
    (all : cs.forM f = some u) : ∀ c ∈ cs, (f c).isSome := by
  induction cs with
  | nil => simp
  | cons c cs ih =>
    obtain ⟨_, first, rest⟩ := Option.bind_eq_some_iff.mp all
    intro d mem
    rcases List.mem_cons.mp mem with rfl | mem
    · simp [first]
    · exact ih rest d mem

theorem reads_shown (v : Value) :
    (shown v).run.Reads fun h => if h.hasText v then some (h.shown v) else none := by
  intro w
  by_cases told : w.heap.hasText v
  · exact .inl ⟨_, if_pos told, by simp [shown, run_bind, Quiet.run_map, told]⟩
  · exact .inr ⟨if_neg told, _, by simp [shown, run_bind, told]; rfl⟩

theorem reads_spoken (v : Value) :
    (spoken v).run.Reads fun h => if h.hasText v then some (h.spoken v) else none := by
  intro w
  by_cases told : w.heap.hasText v
  · exact .inl ⟨_, if_pos told, by simp [spoken, run_bind, Quiet.run_map, told]⟩
  · exact .inr ⟨if_neg told, _, by simp [spoken, run_bind, told]; rfl⟩

end Edit

open Edit

/-! ## What is declared -/

def Hook.ofValue? : Value → Option Hook
  | .hook h => some h
  | .str s => Hook.ofText? s
  | _ => none

theorem reads_hook (v : Value) : (Hook.parse v).run.Reads fun _ => Hook.ofValue? v := by
  cases v with
  | hook h => exact reads_pure h
  | str s =>
    simp only [Hook.parse, Hook.ofValue?]
    cases Hook.ofText? s
    · exact reads_throw _
    · exact reads_pure _
  | _ => exact reads_refused (reads_spoken _) fun s => .registration (.unknownHook s)

def Heap.patterns? (h : Heap) (v : Value) : Option (List String) :=
  match v with
  | .str s => some [s]
  | v => do (← h.items? v).mapM Value.str?

theorem reads_pattern (v : Value) :
    (match v with
      | .str s => return s
      | _ => do throw (.registration (.pattern (← shown v))) : Edit String).Reads fun _ => v.str? := by
  cases v with
  | str s => exact reads_pure s
  | _ => exact reads_refused (reads_shown _) fun s => .registration (.pattern s)

theorem reads_patterns (v : Value) : (patternList v).Reads fun h => h.patterns? v := by
  cases v with
  | str s => exact reads_pure [s]
  | _ =>
    refine reads_heap (fun h _ => do (← h.items? _).mapM Value.str?) fun h => ?_
    cases h.items? _ with
    | none => exact reads_refused (reads_shown _) fun s => .registration (.patterns s)
    | some vs => exact reads_mapM reads_pattern vs

namespace Handler

def checked (h : Handler) : Option Handler := if isTarget h.target then some h else none

def ofValue? (h : Heap) : Value → Option Handler
  | .handler target options => checked ⟨target, options⟩
  | .obj .dict r => checked ⟨((h.get r).find? (Key.text "handler")).getD .none,
      ((h.get r).find? (Key.text "options")).getD .none⟩
  | v => checked ⟨v, .none⟩

theorem reads_checked (t : Handler) :
    (if isTarget t.target then return t else throw (.registration .handler) : Edit Handler).Reads
      fun _ => checked t := by
  unfold checked
  split
  · exact reads_pure t
  · exact reads_throw _

theorem reads_handler (v : Value) : (parse v).Reads fun h => ofValue? h v := by
  cases v with
  | handler target options => exact reads_checked ⟨target, options⟩
  | obj k r =>
    cases k with
    | dict => exact fun w => reads_checked _ w
    | _ => exact reads_checked ⟨.obj _ r, .none⟩
  | _ => exact reads_checked ⟨_, .none⟩

def listOfValue? (h : Heap) (v : Value) : Option (List Handler) :=
  match h.sequence? v with
  | some vs => vs.mapM (ofValue? h)
  | none => (ofValue? h v).map ([·])

theorem reads_handlers (v : Value) : (parseAll v).Reads fun h => listOfValue? h v := by
  refine reads_heap (fun h g => match h.sequence? v with
    | some vs => vs.mapM (ofValue? g)
    | none => (ofValue? g v).map ([·])) fun h => ?_
  cases h.sequence? v with
  | none => exact reads_map _ (reads_handler v)
  | some vs => exact reads_mapM reads_handler vs

end Handler

namespace Definition

def rules? (h : Heap) (entries : Dict) : Option (List (Value × List String)) :=
  entries.items.mapM fun e => do return (e.1, ← h.patterns? e.2)

def extend? (h : Heap) (d : Definition) (label v : Value) : Option Definition :=
  if label = .str "match" then do return { d with rules := ← rules? h (← h.dict? v) }
  else do
    let handlers ← Handler.listOfValue? h v
    return { d with handlers := d.handlers.insert (← Hook.ofValue? label) handlers }

theorem reads_entry (d : Definition) (label v : Value) :
    (d.addEntry label v).Reads fun h => d.extend? h label v := by
  unfold addEntry extend?
  split
  · refine reads_heap (fun h g => do return { d with rules := ← rules? g (← h.dict? v) })
      fun h => ?_
    cases h.dict? v with
    | none => exact reads_throw _
    | some entries =>
      refine reads_bind (reads_mapM (fun e => ?_) entries.items) fun rules => reads_pure _
      exact reads_bind (reads_patterns e.2) fun ps => reads_pure (e.1, ps)
  · exact reads_bind (Handler.reads_handlers v) fun hs => reads_bind (reads_hook label) fun k => reads_pure _

def ofValue? (h : Heap) (v : Value) : Option Definition := do
  (← h.dict? v).items.foldlM (fun d e => d.extend? h e.1 e.2) {}

theorem reads_definition (v : Value) : (parse v).Reads fun h => ofValue? h v := by
  refine reads_heap (fun h g => do
    (← h.dict? v).items.foldlM (fun (d : Definition) e => d.extend? g e.1 e.2) {}) fun h => ?_
  cases h.dict? v with
  | none => exact fun w => .inr ⟨rfl, _, rfl⟩
  | some entries => exact reads_foldlM (fun d e => reads_entry d e.1 e.2) entries.items {}

end Definition

/-! ## What a declaration depends on -/

namespace Heap

structure SameData (h g : Heap) : Prop where
  lists : g.table .list = h.table .list
  tuples : g.table .tuple = h.table .tuple
  dicts : g.table .dict = h.table .dict

namespace SameData

variable {f h g : Heap} (same : h.SameData g)

theorem refl (h : Heap) : h.SameData h := ⟨rfl, rfl, rfl⟩

include same

theorem trans (next : g.SameData f) : h.SameData f :=
  ⟨next.lists.trans same.lists, next.tuples.trans same.tuples, next.dicts.trans same.dicts⟩

theorem get_list (r : Ref .list) : g.get r = h.get r := by rw [get, get, same.lists]

theorem get_tuple (r : Ref .tuple) : g.get r = h.get r := by rw [get, get, same.tuples]

theorem get_dict (r : Ref .dict) : g.get r = h.get r := by rw [get, get, same.dicts]

theorem sequence?_eq (v : Value) : g.sequence? v = h.sequence? v := by
  unfold sequence?
  split
  · rw [same.get_list]
  · rw [same.get_tuple]
  · rfl

theorem dict?_eq (v : Value) : g.dict? v = h.dict? v := by
  unfold dict?
  split
  · rw [same.get_dict]
  · rfl

theorem items?_eq (v : Value) : g.items? v = h.items? v := by
  unfold items?
  split
  · rfl
  · rfl
  · rw [same.get_list]
  · rw [same.get_tuple]
  · rw [same.get_dict]
  · rfl

theorem key?_eq (v : Value) : g.key? v = h.key? v := key?_of_tuples same.tuples v

theorem patterns?_eq (v : Value) : g.patterns? v = h.patterns? v := by
  unfold patterns?
  split
  · rfl
  · rw [same.items?_eq]

theorem handler_eq : Handler.ofValue? g = Handler.ofValue? h := by
  funext v
  unfold Handler.ofValue?
  split
  · rfl
  · rw [same.get_dict]
  · rfl

theorem handlers_eq (v : Value) : Handler.listOfValue? g v = Handler.listOfValue? h v := by
  rw [Handler.listOfValue?, Handler.listOfValue?, same.sequence?_eq, same.handler_eq]

theorem extend?_eq (d : Definition) (label v : Value) :
    d.extend? g label v = d.extend? h label v := by
  simp only [Definition.extend?, Definition.rules?, same.dict?_eq, same.patterns?_eq,
    same.handlers_eq]

theorem definition_eq (v : Value) : Definition.ofValue? g v = Definition.ofValue? h v := by
  simp only [Definition.ofValue?, same.dict?_eq, same.extend?_eq]

end SameData

def Hashable (h : Heap) : Prop := ∀ r : Ref .dict, ∀ e ∈ (h.get r).items, (h.key? e.1).isSome

theorem Hashable.congr {h g : Heap} (hashable : h.Hashable) (same : h.SameData g) : g.Hashable := by
  intro r e mem
  rw [same.get_dict] at mem
  rw [same.key?_eq]
  exact hashable r e mem

end Heap

namespace Definition

variable {h : Heap} {d : Definition}

def Storable (h : Heap) (d : Definition) : Prop := ∀ rule ∈ d.rules, (h.key? rule.1).isSome

theorem Storable.congr {g : Heap} (storable : d.Storable h) (same : h.SameData g) :
    d.Storable g := by
  intro rule mem
  rw [same.key?_eq]
  exact storable rule mem

theorem labels_of_rules {entries : Dict} {rules : List (Value × List String)}
    (declared : rules? h entries = some rules) : rules.map Prod.fst = entries.labels := by
  unfold rules? at declared
  unfold Dict.labels Dict.items at *
  generalize entries.values = es at *
  induction es generalizing rules with
  | nil =>
    cases declared
    rfl
  | cons e es ih =>
    rw [List.mapM_cons] at declared
    obtain ⟨rule, first, rest⟩ := Option.bind_eq_some_iff.mp declared
    obtain ⟨later, known, ends⟩ := Option.bind_eq_some_iff.mp rest
    obtain ⟨ps, -, named⟩ := Option.bind_eq_some_iff.mp first
    cases named
    cases ends
    rw [List.map_cons, List.map_cons, ih known]

theorem storable_extend {c : Definition} {label v : Value} (hashable : h.Hashable)
    (before : d.Storable h) (extended : d.extend? h label v = some c) : c.Storable h := by
  unfold extend? at extended
  split at extended
  · obtain ⟨entries, mapping, rest⟩ := Option.bind_eq_some_iff.mp extended
    obtain ⟨rules, declared, ends⟩ := Option.bind_eq_some_iff.mp rest
    cases ends
    intro rule mem
    have labelled : rule.1 ∈ entries.labels := labels_of_rules declared ▸ List.mem_map_of_mem mem
    obtain ⟨e, listed, same⟩ := List.mem_map.mp labelled
    unfold Heap.dict? at mapping
    split at mapping <;> cases mapping
    exact same ▸ hashable _ e listed
  · obtain ⟨handlers, -, rest⟩ := Option.bind_eq_some_iff.mp extended
    obtain ⟨k, -, ends⟩ := Option.bind_eq_some_iff.mp rest
    cases ends
    exact before

theorem storable_ofValue {v : Value} (hashable : h.Hashable) (declared : ofValue? h v = some d) :
    d.Storable h := by
  obtain ⟨entries, -, folded⟩ := Option.bind_eq_some_iff.mp declared
  have start : ({} : Definition).Storable h := by simp [Storable]
  generalize entries.items = es, ({} : Definition) = c at folded start
  induction es generalizing c with
  | nil =>
    cases folded
    exact start
  | cons e es ih =>
    obtain ⟨c', first, rest⟩ := Option.bind_eq_some_iff.mp folded
    exact ih c' rest (storable_extend hashable start first)

end Definition
end AsyncImport
