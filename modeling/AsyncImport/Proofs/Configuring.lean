import AsyncImport.Proofs.Sheets

/-!
# What an option does to a draft

An option changes the sheet of a draft in one way, or is refused; which of the two depends on the option
alone. A draft that is made from options is a blank one with the same options taken over.
-/

namespace AsyncImport

open Edit

variable {b h : Heap} {w v : World} {d : Ref .draft} {s : Sheet} {x label : Value}

/-! ## What is made of a value -/

def Heap.itemsIfAny? (h : Heap) (x : Value) : Option (List Value) :=
  if h.truthy x then h.items? x else some []

def Format.ofValue? : Value → Option Format
  | .format f => some f
  | .str s => Format.ofText? s
  | _ => none

namespace Edit

theorem copyOfSequence_eq (x : Value) (w : World) : (copyOfSequence x).run w =
    (.ok (.obj .list (w.heap.fresh .list)), w.alloc .list ((w.heap.sequence? x).getD [])) := rfl

theorem copyIfAny_eq {xs : List Value} (found : w.heap.itemsIfAny? x = some xs) :
    (copyIfAny x).run w = (.ok (.obj .list (w.heap.fresh .list)), w.alloc .list xs) := by
  unfold Heap.itemsIfAny? at found
  unfold copyIfAny truthy
  split at found
  · next counts => simp [run_bind, counts, items, found]
  · next counts =>
    cases found
    simp [run_bind, counts]

theorem copyIfAny_refused (missing : w.heap.itemsIfAny? x = none) :
    ∃ f, (copyIfAny x).run w = (.error f, w) := by
  unfold Heap.itemsIfAny? at missing
  split at missing
  · next counts =>
    obtain ⟨f, run⟩ := (reads_items x).missing missing
    refine ⟨f, ?_⟩
    unfold copyIfAny truthy
    rw [run_lift] at run
    simp [run_bind, counts, run]
  · cases missing

theorem reads_format (x : Value) :
    (formatOf x).run.Reads fun _ => (Format.ofValue? x).map .format := by
  have refused (y : Value) : (do throw (.notAFormat (← shown y)) : Quiet Value).run.Reads fun _ => none :=
    reads_refused (reads_shown y) fun s => (Refusal.notAFormat s).fault
  cases x with
  | format f => exact reads_pure _
  | str s =>
    simp only [formatOf, Format.ofValue?]
    cases Format.ofText? s with
    | none => exact refused _
    | some f => exact reads_pure _
  | _ => exact refused _

end Edit

/-! ## One option -/

def Draft.Takes (h : Heap) (label x : Value) : Prop :=
  match label with
  | .str "plugins" => (h.itemsIfAny? x).isSome
  | .str "type" => (Format.ofValue? x).isSome
  | .str "name" => x.isName
  | .str "source" => x.str?.isSome
  | .str "factory" => x.callable
  | .str "content" | .str "deps" | .str "path" | .str "referrer" | .str "code" => True
  | _ => (h.key? label).isSome

def Draft.contentWords : List String := ["content", "source", "code", "factory"]

def Draft.contentOf (t : String) (x : Value) : Value :=
  match t with
  | "source" => .source x
  | "code" => .code x
  | "factory" => .factory x
  | _ => x

def Draft.reserved : List String :=
  ["name", "path", "deps", "plugins", "type", "referrer", "content", "source", "code", "factory"]

def Sheet.with (h : Heap) (s : Sheet) (label x : Value) : Sheet :=
  match label with
  | .str "content" => { s with content := x }
  | .str "deps" => { s with deps := (h.sequence? x).getD [] }
  | .str "plugins" => { s with plugins := (h.itemsIfAny? x).getD [] }
  | .str "type" => { s with format := (Format.ofValue? x).getD .unknown }
  | .str "name" => { s with name := x }
  | .str "path" => { s with path := x }
  | .str "referrer" => { s with referrer := x }
  | .str "source" => { s with content := .source x }
  | .str "code" => { s with content := .code x }
  | .str "factory" => { s with content := .factory x }
  | _ => match h.key? label with
    | some κ => { s with attributes := Function.update s.attributes κ (some x) }
    | none => s

namespace Draft

variable (drafted : b.Drafted w.heap d s)

include drafted

theorem setDeps (xs : List Value) : b.Drafted ((w.alloc .list xs).set d
      { (w.alloc .list xs).heap.get d with deps := .obj .list (w.heap.fresh .list) }).heap d
    { s with deps := xs } := by
  have made := drafted.mono (Heap.Grown.alloc w.heap (k := .list) xs (by decide))
  exact made.setDraft { made.shows.tells with
    deps := ⟨_, rfl, Heap.live_fresh_alloc _ _, Heap.get_alloc_fresh _ _⟩ } rfl

theorem setPlugins (xs : List Value) : b.Drafted ((w.alloc .list xs).set d
      { (w.alloc .list xs).heap.get d with plugins := .obj .list (w.heap.fresh .list) }).heap d
    { s with plugins := xs } := by
  have made := drafted.mono (Heap.Grown.alloc w.heap (k := .list) xs (by decide))
  exact made.setDraft { made.shows.tells with
    plugins := ⟨_, rfl, Heap.live_fresh_alloc _ _, Heap.get_alloc_fresh _ _⟩ } rfl

/-- What a draft takes changes its sheet. -/
theorem setOption_takes (takes : Takes w.heap label x) :
    ∃ v, setOption d label x w = (.ok (), v) ∧ b.Drafted v.heap d (s.with w.heap label x) := by
  have tells := drafted.shows.tells
  unfold setOption
  split
  case h_1 => exact ⟨_, rfl, drafted.setDraft { tells with content := rfl } rfl⟩
  case h_2 => exact ⟨_, rfl, setDeps drafted _⟩
  case h_3 =>
    obtain ⟨xs, found⟩ := Option.isSome_iff_exists.mp takes
    refine ⟨_, by rw [run_bind, run_lift, copyIfAny_eq found]; rfl, ?_⟩
    rw [Sheet.with, found]
    exact setPlugins drafted xs
  case h_4 =>
    obtain ⟨f, denoted⟩ := Option.isSome_iff_exists.mp takes
    have run := (reads_format x).found (w := w) (by rw [denoted]; rfl)
    refine ⟨_, by rw [run_bind, run_lift, run]; rfl, ?_⟩
    rw [Sheet.with, denoted]
    exact drafted.setDraft (t := { s with format := f }) { tells with format := rfl } rfl
  case h_5 =>
    rw [if_pos (show x.isName = true from takes)]
    exact ⟨_, rfl, drafted.setDraft { tells with name := rfl } rfl⟩
  case h_6 => exact ⟨_, rfl, drafted.setDraft { tells with path := rfl } rfl⟩
  case h_7 => exact ⟨_, rfl, drafted.setDraft { tells with referrer := rfl } rfl⟩
  case h_8 =>
    cases x <;> cases takes
    exact ⟨_, rfl, drafted.setDraft { tells with content := rfl } rfl⟩
  case h_9 => exact ⟨_, rfl, drafted.setDraft { tells with content := rfl } rfl⟩
  case h_10 =>
    rw [run_lift, setFactory, if_pos (show x.callable = true from takes)]
    exact ⟨_, rfl, drafted.setDraft { tells with content := rfl } rfl⟩
  case h_11 =>
    obtain ⟨r, is, -⟩ := tells.attributes
    have takes : (w.heap.key? label).isSome := by
      unfold Takes at takes
      split at takes <;> first | assumption | contradiction
    obtain ⟨κ, spelt⟩ := Option.isSome_iff_exists.mp takes
    have run : (setAttribute d label x).run w =
        (.ok (), w.set r ((w.heap.get r).put κ label x)) := by
      have key := (reads_key label).found spelt
      unfold setAttribute
      rw [Quiet.run_bind, run_bind, Quiet.run_read]
      simp only [is]
      rw [Quiet.run_bind, run_bind, ← run_lift, key]
      rfl
    refine ⟨_, run, ?_⟩
    have same : s.with w.heap label x =
        { s with attributes := Function.update s.attributes κ (some x) } := by
      unfold Sheet.with
      split <;> first | contradiction | simp only [spelt]
    rw [same]
    exact drafted.setAttribute is spelt x

theorem setOption_refuses (refuses : ¬ Takes w.heap label x) :
    ∃ f v, setOption d label x w = (.error f, v) := by
  unfold setOption
  split
  case h_3 =>
    have missing : w.heap.itemsIfAny? x = none := by simpa [Takes] using refuses
    obtain ⟨f, run⟩ := copyIfAny_refused missing
    exact ⟨f, w, by rw [run_bind, run_lift, run]⟩
  case h_4 =>
    have missing : Format.ofValue? x = none := by simpa [Takes] using refuses
    obtain ⟨f, run⟩ := (reads_format x).missing (w := w) (by rw [missing]; rfl)
    exact ⟨f, w, by rw [run_bind, run_lift, run]⟩
  case h_5 =>
    rw [if_neg (show ¬ x.isName = true from refuses)]
    exact ⟨_, _, rfl⟩
  case h_8 =>
    cases x with
    | str s => exact absurd rfl refuses
    | _ => exact ⟨_, _, rfl⟩
  case h_10 =>
    rw [run_lift, setFactory, if_neg (show ¬ x.callable = true from refuses)]
    exact ⟨_, _, rfl⟩
  case h_11 =>
    obtain ⟨r, is, -⟩ := drafted.shows.tells.attributes
    have missing : w.heap.key? label = none := by
      unfold Takes at refuses
      split at refuses <;> first | contradiction | simpa using refuses
    obtain ⟨f, run⟩ := (reads_key label).missing missing
    refine ⟨f, w, ?_⟩
    unfold setAttribute
    rw [run_lift, Quiet.run_bind, run_bind, Quiet.run_read]
    simp only [is]
    rw [Quiet.run_bind, run_bind, ← run_lift, run]
  all_goals exact absurd trivial refuses

end Draft

/-! ## Several options -/

def Heap.Has (h : Heap) : Value → Prop
  | .obj _ r => h.Live r
  | _ => True

def Heap.HasItems (h : Heap) (label x : Value) : Prop :=
  label = .str "deps" ∨ label = .str "plugins" → h.Has x

namespace Heap.Grown

variable {g : Heap} (grown : h.Grown g)

include grown

theorem key?_eq (x : Value) : g.key? x = h.key? x := key?_of_tuples grown.tuples x

theorem sequence?_eq (has : h.Has x) : g.sequence? x = h.sequence? x := by
  unfold sequence?
  split
  · rw [grown.get _ has]
  · rw [grown.get _ has]
  · rfl

theorem items?_eq (has : h.Has x) : g.items? x = h.items? x := by
  unfold items?
  split
  · rfl
  · rfl
  · rw [grown.get _ has]
  · rw [grown.get _ has]
  · rw [grown.get _ has]
  · rfl

theorem truthy_eq (has : h.Has x) : g.truthy x = h.truthy x := by
  have length : g.length? x = h.length? x := by
    unfold length?
    split <;> first | rfl | rw [grown.get _ has]
  unfold truthy
  rw [length]

theorem itemsIfAny?_eq (has : h.Has x) : g.itemsIfAny? x = h.itemsIfAny? x := by
  unfold itemsIfAny?
  rw [grown.truthy_eq has, grown.items?_eq has]

theorem takes_iff (there : h.HasItems label x) : Draft.Takes g label x ↔ Draft.Takes h label x := by
  unfold Draft.Takes
  rw [grown.key?_eq]
  split
  case h_1 => rw [grown.itemsIfAny?_eq (there (.inr rfl))]
  all_goals rfl

theorem with_eq (s : Sheet) (there : h.HasItems label x) : s.with g label x = s.with h label x := by
  unfold Sheet.with
  rw [grown.key?_eq]
  split
  case h_2 => rw [grown.sequence?_eq (there (.inl rfl))]
  case h_3 => rw [grown.itemsIfAny?_eq (there (.inr rfl))]
  all_goals rfl

end Heap.Grown

theorem Edit.run_forM_cons {α : Type} (f : α → Edit Unit) (a : α) (as : List α) (w : World) :
    (a :: as).forM f w = match f a w with
      | (.ok _, w) => as.forM f w
      | (.error e, w) => (.error e, w) := by
  rw [show (a :: as).forM f = f a >>= fun _ => as.forM f from rfl, run_bind]
  rcases f a w with ⟨_ | _, _⟩ <;> rfl

def Sheet.over (h : Heap) (s : Sheet) (es : List (Value × Value)) : Sheet :=
  es.foldl (fun s e => s.with h e.1 e.2) s

section Folds

variable {σ ε β : Type} (step : σ → ε → σ) (f : σ → β) {g : ε → β} {p : ε → Bool} {es : List ε}

theorem foldl_untouched (keeps : ∀ s, ∀ e ∈ es, f (step s e) = f s) (s : σ) :
    f (es.foldl step s) = f s := by
  induction es generalizing s with
  | nil => rfl
  | cons e es ih =>
    rw [List.foldl_cons, ih fun s c mem => keeps s c (List.mem_cons_of_mem _ mem)]
    exact keeps s e List.mem_cons_self

/-- Of a fold over entries of which at most one concerns an observation, that entry is seen. -/
theorem foldl_of_once (changes : ∀ s, ∀ e ∈ es, p e = true → f (step s e) = g e)
    (keeps : ∀ s, ∀ e ∈ es, p e = false → f (step s e) = f s)
    (once : es.Pairwise fun a b => ¬ (p a = true ∧ p b = true)) (s : σ) :
    f (es.foldl step s) = ((es.find? p).map g).getD (f s) := by
  induction es generalizing s with
  | nil => rfl
  | cons e es ih =>
    obtain ⟨first, once⟩ := List.pairwise_cons.mp once
    have keepsLater (s : σ) (c : ε) (mem : c ∈ es) := keeps s c (List.mem_cons_of_mem _ mem)
    rw [List.foldl_cons]
    cases concerns : p e with
    | true =>
      rw [List.find?_cons_of_pos concerns, foldl_untouched step f fun s c mem => keepsLater s c mem ?_]
      · exact changes s e List.mem_cons_self concerns
      · exact Bool.eq_false_iff.mpr fun later => first c mem ⟨concerns, later⟩
    | false =>
      rw [List.find?_cons_of_neg (by simp [concerns]),
        ih (fun s c mem => changes s c (List.mem_cons_of_mem _ mem)) keepsLater once,
        keeps s e List.mem_cons_self concerns]

end Folds

namespace Dict

variable {xs : List (String × Value)}

theorem find?_foldl_put (distinct : (xs.map Prod.fst).Nodup) (c : Dict) (κ : Key) :
    (xs.foldl (fun o e => o.put (Key.text e.1) (.str e.1) e.2) c).find? κ =
      ((xs.find? fun e => Key.text e.1 = κ).map Prod.snd).or (c.find? κ) := by
  have once : xs.Pairwise fun a b =>
      ¬ (decide (Key.text a.1 = κ) = true ∧ decide (Key.text b.1 = κ) = true) := by
    refine (List.pairwise_map.mp distinct).imp fun {a b} differ both => differ ?_
    have same := (of_decide_eq_true both.1).trans (of_decide_eq_true both.2).symm
    simpa using same
  rw [foldl_of_once _ (fun c : Dict => c.find? κ) (g := fun e : String × Value => some e.2)
    (p := fun e => decide (Key.text e.1 = κ))
    (fun c e _ is => by rw [Settings.find?_put, if_pos (of_decide_eq_true is).symm])
    (fun c e _ is => by rw [Settings.find?_put, if_neg (Ne.symm (of_decide_eq_false is))]) once]
  cases xs.find? fun e => decide (Key.text e.1 = κ) <;> rfl

theorem find?_foldl_absent {t : String} (absent : ∀ e ∈ xs, e.1 ≠ t) (c : Dict) :
    (xs.foldl (fun o e => o.put (Key.text e.1) (.str e.1) e.2) c).find? (.text t) =
      c.find? (.text t) :=
  foldl_untouched _ (fun c : Dict => c.find? (.text t)) (fun c e mem => by
    rw [Settings.find?_put, if_neg fun same => absent e mem (by simpa using same.symm)]) c

end Dict

namespace Sheet

variable {es : List (Value × Value)}

theorem once_of_distinct {es : List (Value × Value)} (distinct : (es.map fun e => h.key? e.1).Nodup)
    (κ : Key) : es.Pairwise fun a b =>
      ¬ (decide (h.key? a.1 = some κ) = true ∧ decide (h.key? b.1 = some κ) = true) := by
  refine (List.pairwise_map.mp distinct).imp fun {a b} differ both => differ ?_
  rw [of_decide_eq_true both.1, of_decide_eq_true both.2]

/-- What the fields of two sheets have in common if one comes from the other by an option: each of these
fields is decided by one option, and every other leaves it alone. -/
structure Spares (s t : Sheet) (label : Value) : Prop where
  name : label ≠ .str "name" → t.name = s.name
  path : label ≠ .str "path" → t.path = s.path
  referrer : label ≠ .str "referrer" → t.referrer = s.referrer
  deps : label ≠ .str "deps" → t.deps = s.deps
  plugins : label ≠ .str "plugins" → t.plugins = s.plugins
  format : label ≠ .str "type" → t.format = s.format

theorem with_spares (s : Sheet) (label x : Value) : s.Spares (s.with h label x) label := by
  unfold Sheet.with
  split
  case h_11 => split <;> exact ⟨fun _ => rfl, fun _ => rfl, fun _ => rfl, fun _ => rfl, fun _ => rfl, fun _ => rfl⟩
  all_goals constructor <;> intro other <;> first | rfl | contradiction

/-- A field that one option decides says what the entry for that option does. -/
theorem over_field {β : Type} {f : Sheet → β} {g : Value → β} {t : String}
    (distinct : (es.map fun e => h.key? e.1).Nodup)
    (changes : ∀ (s : Sheet) (x : Value), f (s.with h (.str t) x) = g x)
    (keeps : ∀ (s : Sheet) (label x : Value), label ≠ .str t → f (s.with h label x) = f s)
    (s : Sheet) : f (s.over h es) = ((h.under? es (.text t)).map g).getD (f s) := by
  have seen := foldl_of_once (fun s (e : Value × Value) => s.with h e.1 e.2) f
    (g := fun e => g e.2) (p := fun e => decide (h.key? e.1 = some (.text t)))
    (fun s e _ is => by
      rw [Heap.key?_eq_text.mp (of_decide_eq_true is)]
      exact changes s e.2)
    (fun s e _ is => keeps s e.1 e.2 (mt Heap.key?_eq_text.mpr (of_decide_eq_false is)))
    (once_of_distinct distinct _) s
  unfold Sheet.over Heap.under?
  rw [seen, Option.map_map]
  rfl

section

variable (distinct : (es.map fun e => h.key? e.1).Nodup) (s : Sheet)

include distinct

theorem over_name : (s.over h es).name = (h.under? es (.text "name")).getD s.name := by
  simpa using over_field (f := name) (g := id) distinct (fun _ _ => rfl) (fun s _ _ => (s.with_spares ..).name) s

theorem over_path : (s.over h es).path = (h.under? es (.text "path")).getD s.path := by
  simpa using over_field (f := path) (g := id) distinct (fun _ _ => rfl) (fun s _ _ => (s.with_spares ..).path) s

theorem over_referrer :
    (s.over h es).referrer = (h.under? es (.text "referrer")).getD s.referrer := by
  simpa using over_field (f := referrer) (g := id) distinct (fun _ _ => rfl)
    (fun s _ _ => (s.with_spares ..).referrer) s

theorem over_deps : (s.over h es).deps =
    ((h.under? es (.text "deps")).map fun x => (h.sequence? x).getD []).getD s.deps :=
  over_field (f := deps) distinct (fun _ _ => rfl) (fun s _ _ => (s.with_spares ..).deps) s

theorem over_plugins : (s.over h es).plugins =
    ((h.under? es (.text "plugins")).map fun x => (h.itemsIfAny? x).getD []).getD s.plugins :=
  over_field (f := plugins) distinct (fun _ _ => rfl) (fun s _ _ => (s.with_spares ..).plugins) s

theorem over_format : (s.over h es).format =
    ((h.under? es (.text "type")).map fun x => (Format.ofValue? x).getD .unknown).getD s.format :=
  over_field (f := format) distinct (fun _ _ => rfl) (fun s _ _ => (s.with_spares ..).format) s

omit distinct in
theorem with_attributes {label x : Value} {κ : Key} (other : h.key? label ≠ some κ) :
    (s.with h label x).attributes κ = s.attributes κ := by
  unfold Sheet.with
  split
  case h_11 =>
    split
    · next l spelt =>
      exact Function.update_of_ne (fun same => other (by rw [spelt, same])) _ _
    · rfl
  all_goals rfl

theorem over_attributes {κ : Key} (free : ∀ t ∈ Draft.reserved, κ ≠ .text t) :
    (s.over h es).attributes κ = (h.under? es κ).or (s.attributes κ) := by
  have changes (s : Sheet) (label x : Value) (is : h.key? label = some κ) :
      (s.with h label x).attributes κ = some x := by
    have fixed {t : String} (mem : t ∈ Draft.reserved) (same : label = .str t) : False := by
      rw [Heap.key?_eq_text.mpr same] at is
      exact free t mem (Option.some.inj is).symm
    unfold Sheet.with
    split
    case h_11 => simp [is]
    all_goals exact (fixed (by decide) rfl).elim
  have seen := foldl_of_once (fun s (e : Value × Value) => s.with h e.1 e.2)
    (fun s => s.attributes κ)
    (g := fun e => some e.2) (p := fun e => decide (h.key? e.1 = some κ))
    (fun s e _ is => changes s e.1 e.2 (of_decide_eq_true is))
    (fun s e _ is => with_attributes s (of_decide_eq_false is)) (once_of_distinct distinct κ) s
  unfold Sheet.over Heap.under?
  rw [seen]
  cases es.find? fun e => decide (h.key? e.1 = some κ) <;> rfl

omit distinct in
theorem over_reserved {t : String} (mem : t ∈ Draft.reserved) :
    (s.over h es).attributes (.text t) = s.attributes (.text t) := by
  refine foldl_untouched _ (fun s : Sheet => s.attributes (.text t)) (fun s e _ => ?_) s
  by_cases is : e.1 = .str t
  · rw [is]
    simp only [Draft.reserved, List.mem_cons, List.not_mem_nil, or_false] at mem
    rcases mem with rfl | rfl | rfl | rfl | rfl | rfl | rfl | rfl | rfl | rfl <;> rfl
  · exact with_attributes s (mt Heap.key?_eq_text.mp is)

omit distinct in
theorem with_content {label x : Value} (other : ∀ t ∈ Draft.contentWords, label ≠ .str t) :
    (s.with h label x).content = s.content := by
  unfold Sheet.with
  split
  case h_1 => exact absurd rfl (other "content" (by decide))
  case h_8 => exact absurd rfl (other "source" (by decide))
  case h_9 => exact absurd rfl (other "code" (by decide))
  case h_10 => exact absurd rfl (other "factory" (by decide))
  case h_11 => split <;> rfl
  all_goals rfl

omit distinct in
theorem over_content_of_none (none : ∀ e ∈ es, ∀ t ∈ Draft.contentWords, e.1 ≠ .str t) :
    (s.over h es).content = s.content :=
  foldl_untouched _ content (fun s e mem => with_content s (none e mem)) s

theorem over_content {x : Value} {t : String} (mem : (.str t, x) ∈ es) (word : t ∈ Draft.contentWords)
    (one : ∀ e ∈ es, ∀ u ∈ Draft.contentWords, e.1 = .str u → u = t) :
    (s.over h es).content = Draft.contentOf t x := by
  have changes (s : Sheet) (y : Value) : (s.with h (.str t) y).content = Draft.contentOf t y := by
    simp only [Draft.contentWords, List.mem_cons, List.not_mem_nil, or_false] at word
    rcases word with rfl | rfl | rfl | rfl <;> rfl
  have seen := foldl_of_once (fun s (e : Value × Value) => s.with h e.1 e.2) content
    (g := fun e => Draft.contentOf t e.2) (p := fun e => decide (h.key? e.1 = some (.text t)))
    (fun s e _ is => by
      rw [Heap.key?_eq_text.mp (of_decide_eq_true is)]
      exact changes s e.2)
    (fun s e there is => with_content s fun u about same => by
      obtain rfl := one e there u about same
      exact of_decide_eq_false is (Heap.key?_eq_text.mpr same))
    (once_of_distinct distinct _) s
  have found := (Heap.under?_eq_some distinct).mpr ⟨(.str t, x), mem, rfl, rfl⟩
  unfold Heap.under? at found
  unfold Sheet.over
  obtain ⟨e, known, is⟩ := Option.map_eq_some_iff.mp found
  rw [seen, known, Option.map_some, Option.getD_some, is]

end

end Sheet

namespace Draft

variable {es : List (Value × Value)}

theorem configure_takes (drafted : b.Drafted w.heap d s) (has : ∀ e ∈ es, b.HasItems e.1 e.2)
    (takes : ∀ e ∈ es, Takes b e.1 e.2) :
    ∃ v, (es.forM fun e => setOption d e.1 e.2) w = (.ok (), v) ∧ b.Drafted v.heap d (s.over b es) := by
  induction es generalizing s w with
  | nil => exact ⟨w, rfl, drafted⟩
  | cons e es ih =>
    have there := has e List.mem_cons_self
    have fits := (drafted.grown.takes_iff there).mpr (takes e List.mem_cons_self)
    obtain ⟨u, first, changed⟩ := setOption_takes drafted fits
    rw [drafted.grown.with_eq s there] at changed
    obtain ⟨v, rest, ends⟩ := ih changed (fun f mem => has f (List.mem_cons_of_mem _ mem))
      fun f mem => takes f (List.mem_cons_of_mem _ mem)
    exact ⟨v, by rw [run_forM_cons, first]; exact rest, ends⟩

theorem configure_refuses (drafted : b.Drafted w.heap d s) (has : ∀ e ∈ es, b.HasItems e.1 e.2)
    (refuses : ¬ ∀ e ∈ es, Takes b e.1 e.2) :
    ∃ f v, (es.forM fun e => setOption d e.1 e.2) w = (.error f, v) := by
  induction es generalizing s w with
  | nil => exact absurd (fun e mem => by cases mem) refuses
  | cons e es ih =>
    have there := has e List.mem_cons_self
    have same := drafted.grown.takes_iff there
    rw [run_forM_cons]
    by_cases takes : Takes b e.1 e.2
    · obtain ⟨u, first, changed⟩ := setOption_takes drafted (same.mpr takes)
      rw [first]
      refine ih changed (fun f mem => has f (List.mem_cons_of_mem _ mem)) fun all => refuses fun f mem => ?_
      rcases List.mem_cons.mp mem with rfl | later
      · exact takes
      · exact all f later
    · obtain ⟨f, v, first⟩ := setOption_refuses drafted (mt same.mp takes)
      exact ⟨f, v, by rw [first]⟩


/-! ## A new draft -/

namespace Options

variable (o : Options) (name : Value)

def picked (h : Heap) : Option (List Value) :=
  (h.alloc .list ((h.sequence? o.deps).getD [])).itemsIfAny? o.plugins

def finish (text : Value) : Value :=
  (o.code.map .code).getD (if o.factory = .none then text else .factory o.factory)

def content : Value := o.finish (if o.source = .none then .pending else .source o.source)

structure Fits (h : Heap) : Prop where
  name : name.isName
  plugins : (o.picked h).isSome
  format : (Format.ofValue? o.format).isSome
  source : o.source = .none ∨ o.source.str?.isSome
  factory : o.factory = .none ∨ o.factory.callable

def sheet (h : Heap) : Sheet where
  name := name
  path := o.path
  content := o.content
  deps := (h.sequence? o.deps).getD []
  plugins := (o.picked h).getD []
  format := (Format.ofValue? o.format).getD .unknown
  referrer := o.referrer
  attributes := (Dict.ofTexts o.attributes).find?

end Options

variable {o : Options} {name : Value}

theorem fill_takes (drafted : b.Drafted w.heap d s) (pending : s.content = .pending)
    (source : o.source = .none ∨ o.source.str?.isSome)
    (factory : o.factory = .none ∨ o.factory.callable) :
    ∃ v, (fill d o).run w = (.ok (), v) ∧ b.Drafted v.heap d { s with content := o.content } := by
  have code {w : World} {s : Sheet} (drafted : b.Drafted w.heap d s) :
      ∃ v, (o.code.forM (setCode d) : Quiet Unit).run w = (.ok (), v) ∧
        b.Drafted v.heap d { s with content := (o.code.map .code).getD s.content } := by
    cases o.code with
    | none => exact ⟨w, rfl, drafted⟩
    | some x => exact setOption_takes drafted (show Takes w.heap (.str "code") x from trivial)
  have made {w : World} {s : Sheet} (drafted : b.Drafted w.heap d s) :
      ∃ v, (do unless o.factory = .none do setFactory d o.factory
               o.code.forM (setCode d) : Quiet Unit).run w = (.ok (), v) ∧
        b.Drafted v.heap d { s with content := o.finish s.content } := by
    unfold Options.finish
    by_cases absent : o.factory = .none
    · simpa only [absent, ↓reduceIte] using code drafted
    · obtain ⟨u, first, drafted⟩ := setOption_takes drafted
        (show Takes w.heap (.str "factory") o.factory from factory.resolve_left absent)
      obtain ⟨v, last, drafted⟩ := code drafted
      refine ⟨v, ?_, by simpa only [absent, ↓reduceIte, Sheet.with] using drafted⟩
      rw [if_neg absent, Quiet.run_bind, run_bind, show (setFactory d o.factory).run w = _ from first]
      exact last
  unfold fill Options.content
  by_cases absent : o.source = .none
  · simpa only [absent, ↓reduceIte, pending] using made drafted
  · obtain ⟨u, first, drafted⟩ := setOption_takes drafted
      (show Takes w.heap (.str "source") o.source from source.resolve_left absent)
    obtain ⟨v, last, drafted⟩ := made drafted
    refine ⟨v, ?_, by simpa only [absent, ↓reduceIte, Sheet.with] using drafted⟩
    rw [if_neg absent, Quiet.run_bind, run_bind, show (setSource d o.source).run w = _ from first]
    exact last

theorem fill_refuses (drafted : b.Drafted w.heap d s)
    (refuses : ¬ ((o.source = .none ∨ o.source.str?.isSome) ∧ (o.factory = .none ∨ o.factory.callable))) :
    ∃ f v, (fill d o).run w = (.error f, v) := by
  have made {w : World} {s : Sheet} (drafted : b.Drafted w.heap d s)
      (refuses : ¬ (o.factory = .none ∨ o.factory.callable)) :
      ∃ f v, (do unless o.factory = .none do setFactory d o.factory
                 o.code.forM (setCode d) : Quiet Unit).run w = (.error f, v) := by
    obtain ⟨present, refuses⟩ := not_or.mp refuses
    obtain ⟨f, v, first⟩ := setOption_refuses drafted
      (show ¬ Takes w.heap (.str "factory") o.factory from refuses)
    refine ⟨f, v, ?_⟩
    rw [if_neg present, Quiet.run_bind, run_bind, show (setFactory d o.factory).run w = _ from first]
  unfold fill
  by_cases source : o.source = .none ∨ o.source.str?.isSome
  · have factory := fun fits => refuses ⟨source, fits⟩
    by_cases absent : o.source = .none
    · simpa only [absent, ↓reduceIte] using made drafted factory
    · obtain ⟨u, first, drafted⟩ := setOption_takes drafted
        (show Takes w.heap (.str "source") o.source from source.resolve_left absent)
      obtain ⟨f, v, last⟩ := made drafted factory
      refine ⟨f, v, ?_⟩
      rw [if_neg absent, Quiet.run_bind, run_bind, show (setSource d o.source).run w = _ from first]
      exact last
  · obtain ⟨present, refuses⟩ := not_or.mp source
    obtain ⟨f, v, first⟩ := setOption_refuses drafted
      (show ¬ Takes w.heap (.str "source") o.source from refuses)
    refine ⟨f, v, ?_⟩
    rw [if_neg present, Quiet.run_bind, run_bind, show (setSource d o.source).run w = _ from first]

theorem drafted_alloc {c : Draft} (tells : c.Tells h s) (grown : b.Grown h)
    (own : ∀ r : Ref .dict, c.attributes = .obj .dict r → ¬ b.Live r) :
    b.Drafted (h.alloc .draft c) (h.fresh .draft) s where
  shows := {
    live := Heap.live_fresh_alloc _ _
    tells := by
      rw [Heap.get_alloc_fresh]
      exact tells.mono (.alloc h (k := .draft) c (by decide)) }
  grown := grown.trans (.alloc h (k := .draft) c (by decide))
  new live := Heap.not_live_fresh _ _ (grown.live _ live)
  own := by
    rw [Heap.get_alloc_fresh]
    exact own

theorem drafted_fresh (w : World) (name path referrer : Value) (deps plugins : List Value)
    (format : Format) {attributes : Dict} (filed : ∀ h, attributes.Filed h) :
    let u := (w.alloc .list deps).alloc .list plugins
    let v := u.alloc .dict attributes
    w.heap.Drafted (v.alloc .draft
        { name, path, deps := .obj .list (w.heap.fresh .list)
          plugins := .obj .list ((w.alloc .list deps).heap.fresh .list), format := .format format
          referrer, attributes := .obj .dict (u.heap.fresh .dict) }).heap (v.heap.fresh .draft)
      { name, path, deps, plugins, format, referrer, attributes := attributes.find? } := by
  intro u v
  have one : w.heap.Grown (w.alloc .list deps).heap := .alloc _ (k := .list) deps (by decide)
  have two : (w.alloc .list deps).heap.Grown u.heap := .alloc _ (k := .list) plugins (by decide)
  have three : u.heap.Grown v.heap := .alloc _ (k := .dict) attributes (by decide)
  have first : (w.alloc .list deps).heap.Live (w.heap.fresh .list) := Heap.live_fresh_alloc _ _
  have second : u.heap.Live ((w.alloc .list deps).heap.fresh .list) := Heap.live_fresh_alloc _ _
  have listed : v.heap.get (w.heap.fresh .list) = deps :=
    ((two.trans three).get _ first).trans (Heap.get_alloc_fresh _ _)
  have picked : v.heap.get ((w.alloc .list deps).heap.fresh .list) = plugins :=
    (three.get _ second).trans (Heap.get_alloc_fresh _ _)
  have kept : v.heap.get (u.heap.fresh .dict) = attributes := Heap.get_alloc_fresh _ _
  refine drafted_alloc ?_ ((one.trans two).trans three) ?_
  · exact {
      name := rfl
      path := rfl
      content := rfl
      deps := ⟨_, rfl, (two.trans three).live _ first, listed⟩
      plugins := ⟨_, rfl, three.live _ second, picked⟩
      format := rfl
      referrer := rfl
      attributes := ⟨_, rfl, Heap.live_fresh_alloc _ _, by rw [kept]; exact filed _, by rw [kept]⟩ }
  · intro r is live
    cases is
    exact Heap.not_live_fresh _ _ ((one.trans two).live _ live)

theorem run_create {ps : List Value} {f : Format} (named : name.isName)
    (picked : o.picked w.heap = some ps) (denoted : Format.ofValue? o.format = some f) :
    let u := (w.alloc .list ((w.heap.sequence? o.deps).getD [])).alloc .list ps
    let v := u.alloc .dict (Dict.ofTexts o.attributes)
    let d := v.heap.fresh .draft
    (create name o).run w = ((fill d o).run >>= fun _ => pure d) (v.alloc .draft
      { name, path := o.path, deps := .obj .list (w.heap.fresh .list)
        plugins := .obj .list ((w.alloc .list ((w.heap.sequence? o.deps).getD [])).heap.fresh .list)
        format := .format f, referrer := o.referrer
        attributes := .obj .dict (u.heap.fresh .dict) }) := by
  intro u v d
  have plugins := copyIfAny_eq (w := w.alloc .list ((w.heap.sequence? o.deps).getD [])) picked
  have format (w : World) := (reads_format o.format).found (w := w) (by rw [denoted]; rfl)
  unfold create
  rw [if_pos named, Quiet.run_bind, Edit.run_bind, copyOfSequence_eq]
  dsimp only
  rw [Quiet.run_bind, Edit.run_bind, plugins]
  dsimp only
  rw [Quiet.run_bind, Edit.run_bind, format]
  rfl

theorem create_takes (fits : o.Fits name w.heap) :
    ∃ d v, (create name o).run w = (.ok d, v) ∧ w.heap.Drafted v.heap d (o.sheet name w.heap) := by
  obtain ⟨ps, picked⟩ := Option.isSome_iff_exists.mp fits.plugins
  obtain ⟨f, denoted⟩ := Option.isSome_iff_exists.mp fits.format
  have drafted := drafted_fresh w name o.path o.referrer ((w.heap.sequence? o.deps).getD []) ps f
    fun h => Dict.filed_ofTexts h o.attributes
  obtain ⟨v, filled, drafted⟩ := fill_takes drafted rfl fits.source fits.factory
  refine ⟨_, v, ?_, by simpa only [Options.sheet, picked, denoted, Option.getD_some] using drafted⟩
  rw [run_create fits.name picked denoted, Edit.run_bind, filled]
  rfl

theorem fits_blank (h : Heap) (named : name.isName) : ({} : Options).Fits name h where
  name := named
  plugins := rfl
  format := rfl
  source := .inl rfl
  factory := .inl rfl

theorem create_refuses (refuses : ¬ o.Fits name w.heap) :
    ∃ f v, (create name o).run w = (.error f, v) := by
  by_cases named : name.isName
  case neg => exact ⟨_, w, by rw [create, if_neg named]; rfl⟩
  cases picked : o.picked w.heap with
  | none =>
    obtain ⟨f, run⟩ := copyIfAny_refused (w := w.alloc .list ((w.heap.sequence? o.deps).getD [])) picked
    refine ⟨f, w.alloc .list ((w.heap.sequence? o.deps).getD []), ?_⟩
    unfold create
    simp only [if_pos named, Quiet.run_bind, Edit.run_bind, copyOfSequence_eq, run]
  | some ps =>
    cases denoted : Format.ofValue? o.format with
    | none =>
      have plugins := copyIfAny_eq (w := w.alloc .list ((w.heap.sequence? o.deps).getD [])) picked
      obtain ⟨f, run⟩ := (reads_format o.format).missing
        (w := (w.alloc .list ((w.heap.sequence? o.deps).getD [])).alloc .list ps) (by rw [denoted]; rfl)
      refine ⟨f, (w.alloc .list ((w.heap.sequence? o.deps).getD [])).alloc .list ps, ?_⟩
      unfold create
      simp only [if_pos named, Quiet.run_bind, Edit.run_bind, copyOfSequence_eq, plugins, run]
    | some f =>
      have drafted := drafted_fresh w name o.path o.referrer ((w.heap.sequence? o.deps).getD []) ps f
        fun h => Dict.filed_ofTexts h o.attributes
      obtain ⟨e, v, run⟩ := fill_refuses (o := o) drafted fun fits => refuses
        { name := named
          plugins := by rw [picked]; rfl
          format := by rw [denoted]; rfl
          source := fits.1
          factory := fits.2 }
      exact ⟨e, v, by rw [run_create named picked denoted, Edit.run_bind, run]⟩

end Draft
end AsyncImport
