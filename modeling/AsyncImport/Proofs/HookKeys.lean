import AsyncImport.Config.Settings
import AsyncImport.Proofs.Merging

/-!
# Several keys for one hook

A hook can be given as itself and by its name, so that two keys of one mapping may denote it. What the last
of them lists is kept, of definitions as of ignore tables; what the others list is lost. Where hooks are
given by their names only, nothing is.
-/

namespace AsyncImport

open Edit

variable {w v : World} {r : Ref .registry} {p : Ref .plugin} {ss : List Submission}

/-! ## Definitions -/

/-- Every handler that the last key for a hook lists is represented. -/
theorem last_listed {name definition : Value} {k : Hook} {ts : List Handler}
    (submitted : Submitted w ss) (live : w.heap.Live r)
    (run : Registry.register r name definition w = (.ok p, v))
    (last : (Definition.listed w.heap (Registry.definitionOf w.heap name definition) k).getLast? =
      some ts) :
    ∀ t ∈ ts, ∃ u ∈ (v.heap.get p).handlersFor k, u.target = t.target := by
  intro t mem
  obtain ⟨d, u, read, -, -, -, -, -, gains⟩ :=
    Registry.register_ok (enrolled_of_submitted submitted).1 live run
  rw [gains.handlers, Definition.handlers_of_read read, last]
  exact Handler.mem_merge _ mem

/-- Every handler at all is, where hooks are given by their names. -/
theorem all_listed {name definition : Value} {k : Hook} {ts : List Handler}
    (submitted : Submitted w ss) (live : w.heap.Live r)
    (run : Registry.register r name definition w = (.ok p, v))
    (spelled : ∀ e ∈ Definition.entries w.heap (Registry.definitionOf w.heap name definition),
      e.1.str?.isSome = true)
    (listed : ts ∈ Definition.listed w.heap (Registry.definitionOf w.heap name definition) k) :
    ∀ t ∈ ts, ∃ u ∈ (v.heap.get p).handlersFor k, u.target = t.target := by
  have one := Submission.length_lists_le_one
    (s := ⟨p, w.heap, .definition (Registry.definitionOf w.heap name definition)⟩)
    (enrolled_of_submitted submitted).2.1 spelled k
  refine last_listed submitted live run ?_
  unfold Submission.lists at one
  dsimp only at one
  match Definition.listed w.heap (Registry.definitionOf w.heap name definition) k, one, listed with
  | [us], _, mem => rw [List.mem_singleton.mp mem, List.getLast?_singleton]

/-! ## Ignore tables -/

theorem Edit.tryCatch_ok {α : Type} {e : Edit α} {f : Fault → Edit α} {a : α}
    (run : tryCatch e f w = (.ok a, v)) :
    e w = (.ok a, v) ∨ ∃ g u, e w = (.error g, u) ∧ f g u = (.ok a, v) := by
  change ExceptT.tryCatch e f w = _ at run
  simp only [ExceptT.tryCatch, ExceptT.mk, bind, StateT.bind] at run
  rcases ends : e w with ⟨⟨g⟩ | ⟨b⟩, u⟩
  · rw [ends] at run
    exact .inr ⟨g, u, rfl, run⟩
  · rw [ends] at run
    exact .inl run

namespace Settings

theorem items?_alloc_list {h : Heap} {x : Value} (live : ∀ r : Ref .list, x = .obj .list r → h.Live r)
    (vs : List Value) : (h.alloc .list vs).items? x = h.items? x := by
  unfold Heap.items?
  split
  case h_3 r => rw [Heap.get_alloc_live _ _ (live r rfl)]
  all_goals rfl

theorem patterns?_alloc_list {h : Heap} {x : Value} (live : ∀ r : Ref .list, x = .obj .list r → h.Live r)
    (vs : List Value) : (h.alloc .list vs).patterns? x = h.patterns? x := by
  unfold Heap.patterns?
  split
  · rfl
  · rw [items?_alloc_list live]

theorem ignoredEntry_ok {stage x y : Value} {k : Hook}
    (run : ignoredEntry stage x w = (.ok (k, y), v)) :
    Hook.ofValue? stage = some k ∧ ∃ ps, w.heap.patterns? x = some ps ∧
      y = .obj .list (w.heap.fresh .list) ∧ v = w.alloc .list (ps.map .str) := by
  unfold ignoredEntry at run
  obtain ⟨l, denoted, run⟩ := (reads_hook stage).bind_ok run
  obtain ⟨ps, read, run⟩ := (reads_patterns x).bind_ok run
  cases run
  exact ⟨denoted, ps, read, rfl, rfl⟩

def naming (es : List (Value × Value)) (k : Hook) : List (Value × Value) :=
  es.filter fun e => Hook.ofValue? e.1 = some k

def Follows (h g : Heap) (es : List (Value × Value)) (d : Dict) : Prop :=
  ∀ k, match (naming es k).getLast? with
    | some e => ∃ l ps, d.find? (Key.text k.text) = some (.obj .list l) ∧ g.Live l ∧
      h.patterns? e.2 = some ps ∧ g.get l = ps.map .str
    | none => d.find? (Key.text k.text) = none

theorem find?_put (d : Dict) (k l : Key) (label x : Value) :
    (d.put k label x).find? l = if l = k then some x else d.find? l := by
  unfold Dict.put Dict.find?
  rw [Assoc.get?_insert]
  split <;> rfl

theorem text_injective {k l : Hook} (same : Key.text k.text = Key.text l.text) : k = l := by
  revert same
  cases k <;> cases l <;> decide

theorem Follows.entry {h g : Heap} {es : List (Value × Value)} {d : Dict} (follows : Follows h g es d)
    {e : Value × Value} {k : Hook} {ps : List String} (denoted : Hook.ofValue? e.1 = some k)
    (read : h.patterns? e.2 = some ps) : Follows h (g.alloc .list (ps.map .str)) (es ++ [e])
      (d.put (Key.text k.text) (.str k.text) (.obj .list (g.fresh .list))) := by
  intro l
  have before := follows l
  rw [find?_put]
  unfold naming at before ⊢
  rw [List.filter_append]
  by_cases same : k = l
  · subst same
    rw [List.filter_cons_of_pos (by simpa using denoted), List.filter_nil, List.getLast?_concat]
    exact ⟨_, ps, if_pos rfl, Heap.live_fresh_alloc _ _, read, Heap.get_alloc_fresh _ _⟩
  · rw [List.filter_cons_of_neg (by simpa [denoted] using same), List.filter_nil, List.append_nil,
      if_neg fun e => same (text_injective e).symm]
    split at before
    · obtain ⟨r, qs, known, live, read, listed⟩ := before
      exact ⟨r, qs, known, Heap.live_alloc.mpr (.inl live), read,
        (Heap.get_alloc_live _ _ live).trans listed⟩
    · exact before

theorem follows_foldlM {h : Heap} {es before : List (Value × Value)} {c d : Dict}
    (follows : Follows h w.heap before c)
    (live : ∀ r : Ref .list, h.Live r → w.heap.Live r)
    (same : ∀ e ∈ es, w.heap.patterns? e.2 = h.patterns? e.2)
    (known : ∀ e ∈ es, ∀ r : Ref .list, e.2 = .obj .list r → h.Live r)
    (run : (es.foldlM (fun (d : Dict) e => do
      let (k, patterns) ← tryCatch (ignoredEntry e.1 e.2) fun
        | .registration cause => throw (.validation (.ignored cause))
        | f => throw f
      return d.put (Key.text k.text) (.str k.text) patterns) c : Edit Dict) w = (.ok d, v)) :
    Follows h v.heap (before ++ es) d := by
  induction es generalizing before c w with
  | nil =>
    cases run
    simpa using follows
  | cons e es ih =>
    rw [List.foldlM_cons] at run
    obtain ⟨b, u, first, run⟩ := bind_ok run
    obtain ⟨⟨k, y⟩, x, entry, ends⟩ := bind_ok first
    cases ends
    have entry : ignoredEntry e.1 e.2 w = (.ok (k, y), u) := by
      rcases tryCatch_ok entry with done | ⟨f, x, -, never⟩
      · exact done
      · cases f <;> cases never
    obtain ⟨denoted, ps, read, rfl, rfl⟩ := ignoredEntry_ok entry
    rw [same e List.mem_cons_self] at read
    have all := ih (follows.entry denoted read) (fun r there => World.live_alloc.mpr (.inl (live r there)))
      (fun c mem => ?_) (fun c mem => known c (List.mem_cons_of_mem _ mem)) run
    · rwa [List.append_assoc] at all
    · exact (patterns?_alloc_list (fun r is => live r (known c (List.mem_cons_of_mem _ mem) r is)) _).trans
        (same c (List.mem_cons_of_mem _ mem))

/-- Settings list for each stage the patterns of the last entry that names it. -/
theorem ignored_follows {table x : Value} {d : Dict} (mapping : w.heap.dict? table = some d)
    (known : ∀ e ∈ d.items, ∀ r : Ref .list, e.2 = .obj .list r → w.heap.Live r)
    (run : ignored table w = (.ok x, v)) :
    ∃ r : Ref .dict, x = .obj .dict r ∧ Follows w.heap v.heap d.items (v.heap.get r) := by
  unfold ignored at run
  simp only [run_bind, run_lift, Quiet.run_heap, mapping] at run
  split at run
  · next c u folded =>
    cases run
    have start : Follows w.heap w.heap [] {} := fun _ => rfl
    have follows := follows_foldlM start (fun _ live => live) (fun _ _ => rfl) known folded
    refine ⟨u.heap.fresh .dict, rfl, ?_⟩
    rw [show (World.heap _).get (u.heap.fresh .dict) = c from Heap.get_alloc_fresh (k := .dict) _ _]
    exact follows
  · cases run

end Settings
end AsyncImport
