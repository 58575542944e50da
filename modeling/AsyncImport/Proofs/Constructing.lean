import AsyncImport.Proofs.Configuring
import AsyncImport.Session.Create
import Mathlib.Data.List.Find

/-!
# Two ways to a draft

A host makes a draft with all of its options at once, or makes a blank one and lets it take over a mapping
of the same options. The first goes by the words of the options, the second by the keys of the mapping, one
after another. Both are refused, or both give drafts that say the same.
-/

namespace AsyncImport

open Edit

variable {h : Heap} {w v : World} {name : Value} {options : List (Label × Value)}
  {es : List (Value × Value)}

def Maker.draftNames : List (String × Word) :=
  [("name", .name), ("path", .path), ("source", .source), ("code", .code), ("factory", .factory),
   ("deps", .deps), ("plugins", .plugins), ("type", .format), ("referrer", .referrer)]

def Label.Regular (l : Label) : Prop := ∀ e ∈ Maker.draftNames, l.word = some e.2 ↔ l.text = e.1

instance (l : Label) : Decidable l.Regular := inferInstanceAs (Decidable (∀ e ∈ Maker.draftNames, _))

def Draft.sources : List String := ["source", "code", "factory"]

theorem Draft.word_of_source : ∀ t ∈ Draft.sources, t ∈ Draft.contentWords := by decide

theorem Draft.source_of_word {t : String} (word : t ∈ Draft.contentWords)
    (other : t ∉ ["name", "content", "self"]) : t ∈ Draft.sources := by
  have words : ∀ t ∈ Draft.contentWords, t ∈ ["name", "content", "self"] ∨ t ∈ Draft.sources := by decide
  exact (words t word).resolve_left other

/-- Named arguments that a draft can be made with: no two have one name, at most one is about the content,
and a source text or a factory is given only where there is one. -/
structure Maker.Choice (h : Heap) (options : List (Label × Value)) : Prop where
  regular : ∀ o ∈ options, o.1.Regular
  distinct : (options.map fun o => o.1.text).Nodup
  other : ∀ o ∈ options, o.1.text ∉ ["name", "content", "self"]
  one : ∀ o ∈ options, ∀ p ∈ options, o.1.text ∈ Draft.sources → p.1.text ∈ Draft.sources →
    o.1.text = p.1.text
  given : ∀ o ∈ options, o.1.text ∈ ["source", "factory"] → o.2 ≠ .none
  there : ∀ o ∈ options, h.Has o.2

/-- An edit gives a draft that shows a sheet, or fails where there is no sheet. -/
def Edit.Yields (e : Edit Value) (w : World) : Option Sheet → Prop
  | some s => ∃ d v, e w = (.ok (.obj .draft d), v) ∧ v.heap.Shows d s
  | none => ∃ f v, e w = (.error f, v)

/-! ## Options by name and by key -/

namespace Heap

theorem under?_perm {fs : List (Value × Value)} (perm : es.Perm fs)
    (distinct : (es.map fun e => h.key? e.1).Nodup) (κ : Key) : h.under? es κ = h.under? fs κ := by
  have distinct' : (fs.map fun e => h.key? e.1).Nodup := (perm.map _).nodup_iff.mp distinct
  refine Option.ext fun x => ?_
  rw [under?_eq_some distinct, under?_eq_some distinct']
  simp only [perm.mem_iff]

theorem under?_labelled (h : Heap) (options : List (Label × Value)) (t : String) :
    h.under? (options.map fun o => (.str o.1.text, o.2)) (.text t) =
      (options.find? fun o => o.1.text = t).map Prod.snd := by
  have same (s : String) : (h.key? (.str s) = some (Key.text t)) ↔ s = t := by
    rw [key?_eq_text, Value.str.injEq]
  unfold under?
  rw [List.find?_map, Option.map_map]
  simp only [Function.comp_def, same]

end Heap

namespace Maker

variable (choice : Choice h options) (perm : es.Perm (options.map fun o => (.str o.1.text, o.2)))

include choice perm

theorem Choice.keys : (es.map fun e => h.key? e.1).Nodup := by
  rw [(perm.map fun e => h.key? e.1).nodup_iff, List.map_map]
  have keys : ((fun e => h.key? e.1) ∘ fun o : Label × Value => (Value.str o.1.text, o.2)) =
      (fun t => some (Key.text t)) ∘ fun o : Label × Value => o.1.text := rfl
  rw [keys, ← List.map_map]
  exact choice.distinct.map fun s t same => by
    cases same
    rfl

theorem Choice.named?_eq {t : String} {word : Word} (mem : (t, word) ∈ draftNames) :
    named? word options = h.under? es (.text t) := by
  rw [Heap.under?_perm perm (choice.keys perm), Heap.under?_labelled]
  unfold named?
  congr 1
  refine List.find?_congr fun o there => ?_
  exact decide_eq_decide.mpr (choice.regular o there _ mem)

theorem Choice.mem_iff {t : String} {x : Value} :
    (.str t, x) ∈ es ↔ h.under? es (.text t) = some x := by
  rw [Heap.under?_eq_some (choice.keys perm)]
  constructor
  · exact fun mem => ⟨_, mem, rfl, rfl⟩
  · rintro ⟨e, mem, spelt, rfl⟩
    rwa [← Heap.key?_eq_text.mp spelt]

omit perm in
theorem Choice.splitName_eq (name : Value) :
    splitName { items := [name], named := options } = pure (name, options) := by
  have word (o : Label × Value) (mem : o ∈ options) : o.1.word ≠ some .name := fun is =>
    choice.other o mem (by simp [(choice.regular o mem ("name", .name) (by decide)).mp is])
  have absent : (options.find? fun o => o.1.word = some .name) = none :=
    List.find?_eq_none.mpr fun o mem => by simpa using word o mem
  have rest : (options.filter fun o => o.1.word ≠ some .name) = options :=
    List.filter_eq_self.mpr fun o mem => by simpa using word o mem
  unfold splitName Parameter.takeNamed
  simp only [absent, rest, Option.map_none]

def extras (options : List (Label × Value)) : List (String × Value) :=
  (options.filter fun o => isAttribute o.1).map fun o => (o.1.text, o.2)

def optionsOf (find : String → Option Value) (extras : List (String × Value)) : Draft.Options where
  path := (find "path").getD .none
  source := (find "source").getD .none
  code := find "code"
  factory := (find "factory").getD .none
  deps := (find "deps").getD .none
  plugins := (find "plugins").getD .none
  format := (find "type").getD (.format .unknown)
  referrer := (find "referrer").getD .none
  attributes := extras

theorem Choice.makeDraft_eq (name : Value) :
    make (.object .draft) { items := [name], named := options } = do
      return .obj .draft (← Draft.create name
        (optionsOf (fun t => h.under? es (.text t)) (extras options))) := by
  have named (t : String) (word : Word) (mem : (t, word) ∈ draftNames) :=
    choice.named?_eq perm mem
  have same : optionsOf (fun t => h.under? es (.text t)) (extras options) =
      { path := (named? .path options).getD .none, source := (named? .source options).getD .none
        code := named? .code options, factory := (named? .factory options).getD .none
        deps := (named? .deps options).getD .none, plugins := (named? .plugins options).getD .none
        format := (named? .format options).getD (.format .unknown)
        referrer := (named? .referrer options).getD .none, attributes := extras options } := by
    rw [named "path" .path (by decide), named "source" .source (by decide),
      named "code" .code (by decide), named "factory" .factory (by decide),
      named "deps" .deps (by decide), named "plugins" .plugins (by decide),
      named "type" .format (by decide), named "referrer" .referrer (by decide)]
    rfl
  rw [same]
  show makeDraft _ = _
  unfold makeDraft
  rw [choice.splitName_eq, pure_bind]
  rfl

omit perm in
theorem Choice.isAttribute_iff {o : Label × Value} (mem : o ∈ options) :
    isAttribute o.1 = true ↔ o.1.text ∉ Draft.reserved := by
  have regular := choice.regular o mem
  have other := choice.other o mem
  unfold isAttribute
  constructor
  -- The words are finitely many, so that what has to be known of them is decided.
  · intro kept reserved
    have words : ∀ t ∈ Draft.reserved, t ∉ ["name", "content", "self"] →
        ∃ e ∈ draftNames, e.1 = t ∧ e.2 ∈ draftWords := by decide
    obtain ⟨e, listed, is, known⟩ := words _ reserved other
    rw [(regular e listed).mpr is.symm] at kept
    have unknown : e.2 ∉ draftWords := by simpa using kept
    exact unknown known
  · intro free
    split
    · next word is =>
      have unlisted (e : String × Word) (listed : e ∈ draftNames) : e.2 ≠ word := by
        rintro rfl
        have named := (regular e listed).mp is
        have reserved : ∀ e ∈ draftNames, e.1 ∈ Draft.reserved := by decide
        exact free (named ▸ reserved e listed)
      have words : ∀ word ∈ draftWords, ∃ e ∈ draftNames, e.2 = word := by decide
      simp only [Bool.not_eq_true', List.contains_eq_mem, decide_eq_false_iff_not]
      intro known
      obtain ⟨e, listed, same⟩ := words word known
      exact unlisted e listed same
    · rfl

theorem Choice.mem_extras {t : String} {x : Value} :
    (t, x) ∈ extras options ↔ t ∉ Draft.reserved ∧ (.str t, x) ∈ es := by
  unfold extras
  rw [perm.mem_iff]
  simp only [List.mem_map, List.mem_filter, Prod.mk.injEq, Value.str.injEq]
  constructor
  · rintro ⟨o, ⟨mem, kept⟩, rfl, rfl⟩
    exact ⟨(choice.isAttribute_iff mem).mp kept, o, mem, rfl, rfl⟩
  · rintro ⟨free, o, mem, rfl, rfl⟩
    exact ⟨o, ⟨mem, (choice.isAttribute_iff mem).mpr free⟩, rfl, rfl⟩

omit perm in
theorem Choice.extras_distinct : ((extras options).map Prod.fst).Nodup := by
  unfold extras
  rw [List.map_map]
  exact choice.distinct.sublist (List.filter_sublist.map _)

/-! ## One sheet -/

variable {name : Value}

omit choice in
theorem named_of_mem {e : Value × Value} (mem : e ∈ es) :
    ∃ o ∈ options, e = (.str o.1.text, o.2) := by
  obtain ⟨o, there, same⟩ := List.mem_map.mp (perm.mem_iff.mp mem)
  exact ⟨o, there, same.symm⟩

theorem Choice.has {e : Value × Value} (mem : e ∈ es) : h.Has e.2 := by
  obtain ⟨o, there, rfl⟩ := named_of_mem perm mem
  exact choice.there o there

theorem Choice.under?_given {t : String} {x : Value} (word : t ∈ ["source", "factory"])
    (found : h.under? es (.text t) = some x) : x ≠ .none := by
  obtain ⟨o, there, same⟩ := named_of_mem perm ((choice.mem_iff perm).mpr found)
  cases same
  exact choice.given o there word

theorem Choice.under?_other {t : String} (word : t ∈ ["name", "content", "self"]) :
    h.under? es (.text t) = none := by
  refine Heap.under?_eq_none.mpr fun e mem spelt => ?_
  obtain ⟨o, there, rfl⟩ := named_of_mem perm mem
  cases Heap.key?_eq_text.mp spelt
  exact choice.other o there word

theorem Choice.picked_eq : (optionsOf (fun t => h.under? es (.text t)) (extras options)).picked h =
    h.itemsIfAny? ((h.under? es (.text "plugins")).getD .none) := by
  refine (Heap.Grown.alloc h (k := .list) _ (by decide)).itemsIfAny?_eq ?_
  show h.Has ((h.under? es (.text "plugins")).getD .none)
  cases found : h.under? es (.text "plugins") with
  | none => trivial
  | some x => exact choice.has perm ((choice.mem_iff perm).mpr found)

/-- A draft can be made with the options if a draft takes each of them. -/
theorem Choice.fits_iff (named : name.isName) :
    (optionsOf (fun t => h.under? es (.text t)) (extras options)).Fits name h ↔
      ∀ e ∈ es, Draft.Takes h e.1 e.2 := by
  have under {t : String} {x : Value} := choice.mem_iff perm (t := t) (x := x)
  constructor
  · rintro fits ⟨label, x⟩ mem
    obtain ⟨o, there, same⟩ := named_of_mem perm mem
    show Draft.Takes h label x
    unfold Draft.Takes
    split
    case h_1 =>
      have plugins := fits.plugins
      rwa [choice.picked_eq perm, under.mp mem] at plugins
    case h_2 =>
      have format := fits.format
      dsimp only [optionsOf] at format
      rwa [under.mp mem] at format
    case h_3 => cases (under.mp mem).symm.trans (choice.under?_other perm (by decide))
    case h_4 =>
      have source := fits.source
      dsimp only [optionsOf] at source
      rw [under.mp mem] at source
      exact source.resolve_left (choice.under?_given perm (by decide) (under.mp mem))
    case h_5 =>
      have factory := fits.factory
      dsimp only [optionsOf] at factory
      rw [under.mp mem] at factory
      exact factory.resolve_left (choice.under?_given perm (by decide) (under.mp mem))
    case h_11 =>
      cases same
      rfl
    all_goals trivial
  · intro takes
    have each {t : String} {x : Value} (found : h.under? es (.text t) = some x) :=
      takes _ (under.mpr found)
    exact {
      name := named
      plugins := by
        rw [choice.picked_eq perm]
        cases found : h.under? es (.text "plugins") with
        | none => rfl
        | some x => exact each found
      format := by
        dsimp only [optionsOf]
        cases found : h.under? es (.text "type") with
        | none => rfl
        | some x => exact each found
      source := by
        dsimp only [optionsOf]
        cases found : h.under? es (.text "source") with
        | none => exact .inl rfl
        | some x => exact .inr (each found)
      factory := by
        dsimp only [optionsOf]
        cases found : h.under? es (.text "factory") with
        | none => exact .inl rfl
        | some x => exact .inr (each found) }

theorem Choice.only {t u : String} {x : Value} {e : Value × Value} (word : t ∈ Draft.sources)
    (found : h.under? es (.text t) = some x) (mem : e ∈ es) (about : u ∈ Draft.contentWords)
    (is : e.1 = .str u) : u = t := by
  obtain ⟨o, there, rfl⟩ := named_of_mem perm mem
  obtain ⟨p, also, same⟩ := named_of_mem perm ((choice.mem_iff perm).mpr found)
  cases is
  cases same
  exact choice.one o there p also (Draft.source_of_word about (choice.other o there)) word

omit choice perm in
theorem content_optionsOf {find : String → Option Value} {source factory code : Option Value}
    (text : find "source" = source) (made : find "factory" = factory) (is : find "code" = code) :
    (optionsOf find (extras options)).content = (code.map .code).getD
      (if factory.getD .none = .none then
        if source.getD .none = .none then .pending else .source (source.getD .none)
      else .factory (factory.getD .none)) := by
  subst text made is
  rfl

theorem Choice.content_eq (s : Sheet) (pending : s.content = .pending) : (s.over h es).content =
    (optionsOf (fun t => h.under? es (.text t)) (extras options)).content := by
  have distinct := choice.keys perm
  -- Without an option about the content both are pending; otherwise there is only that one.
  by_cases about : ∃ t ∈ Draft.sources, ∃ x, h.under? es (.text t) = some x
  case neg =>
    have absent {t : String} (word : t ∈ Draft.sources) : h.under? es (.text t) = none := by
      refine Option.eq_none_iff_forall_ne_some.mpr fun x found => about ⟨t, word, x, found⟩
    rw [content_optionsOf (absent (by decide)) (absent (by decide)) (absent (by decide)),
      Sheet.over_content_of_none, pending]
    · rfl
    · intro e mem t word is
      obtain ⟨o, there, rfl⟩ := named_of_mem perm mem
      cases is
      have source := Draft.source_of_word word (choice.other o there)
      cases (absent source).symm.trans ((choice.mem_iff perm).mp mem)
  case pos =>
    obtain ⟨t, word, x, found⟩ := about
    have absent {u : String} (other : u ∈ Draft.sources) (ne : u ≠ t) : h.under? es (.text u) = none := by
      refine Option.eq_none_iff_forall_ne_some.mpr fun y known => ne ?_
      exact choice.only perm word found ((choice.mem_iff perm).mpr known) (Draft.word_of_source u other) rfl
    rw [Sheet.over_content distinct _ ((choice.mem_iff perm).mpr found) (Draft.word_of_source t word)
      fun e mem u about is => choice.only perm word found mem about is]
    have given := choice.under?_given perm (t := t) (x := x)
    simp only [Draft.sources, List.mem_cons, List.not_mem_nil, or_false] at word
    rcases word with rfl | rfl | rfl
    · rw [content_optionsOf found (absent (by decide) (by decide)) (absent (by decide) (by decide))]
      simp [Draft.contentOf, given (by decide) found]
    · rw [content_optionsOf rfl rfl found]
      rfl
    · rw [content_optionsOf rfl found (absent (by decide) (by decide))]
      simp [Draft.contentOf, given (by decide) found]

omit choice perm in
theorem find?_ofTexts (h : Heap) {xs : List (String × Value)} (distinct : (xs.map Prod.fst).Nodup)
    (κ : Key) : (Dict.ofTexts xs).find? κ = h.under? (xs.map fun e => (.str e.1, e.2)) κ := by
  have labels (t : String) : (h.key? (.str t) = some κ) ↔ Key.text t = κ := by
    rw [show h.key? (.str t) = some (Key.text t) from rfl, Option.some.injEq]
  unfold Dict.ofTexts Heap.under?
  rw [Dict.find?_foldl_put distinct, List.find?_map, Option.map_map]
  simp only [Function.comp_def, labels]
  exact Option.or_none

theorem Choice.attributes_eq (s : Sheet) (none : s.attributes = fun _ => none) :
    (s.over h es).attributes = (Dict.ofTexts (extras options)).find? := by
  funext κ
  have distinct := choice.keys perm
  let kept := (extras options).map fun e => (Value.str e.1, e.2)
  have labels : (kept.map fun e => h.key? e.1).Nodup := by
    rw [List.map_map]
    have keys : ((fun e : Value × Value => h.key? e.1) ∘ fun e : String × Value => (Value.str e.1, e.2)) =
        (fun t => some (Key.text t)) ∘ Prod.fst := rfl
    rw [keys, ← List.map_map]
    exact choice.extras_distinct.map fun s t same => by simpa using same
  have mem {t : String} {x : Value} : (Value.str t, x) ∈ kept ↔ (t, x) ∈ extras options := by
    simp [kept]
  rw [find?_ofTexts h choice.extras_distinct]
  by_cases free : ∀ t ∈ Draft.reserved, κ ≠ .text t
  case pos =>
    rw [Sheet.over_attributes distinct s free, none, Option.or_none]
    refine Option.ext fun x => ?_
    rw [Heap.under?_eq_some distinct, Heap.under?_eq_some labels]
    constructor
    · rintro ⟨e, there, spelt, rfl⟩
      obtain ⟨o, -, rfl⟩ := named_of_mem perm there
      have other : o.1.text ∉ Draft.reserved := fun reserved =>
        free _ reserved (Option.some.inj spelt).symm
      exact ⟨_, mem.mpr ((choice.mem_extras perm).mpr ⟨other, there⟩), spelt, rfl⟩
    · rintro ⟨e, there, spelt, rfl⟩
      obtain ⟨⟨t, x⟩, extra, rfl⟩ := List.mem_map.mp there
      exact ⟨_, ((choice.mem_extras perm).mp extra).2, spelt, rfl⟩
  case neg =>
    push Not at free
    obtain ⟨t, reserved, rfl⟩ := free
    rw [Sheet.over_reserved s reserved, none]
    refine (Heap.under?_eq_none.mpr fun e there spelt => ?_).symm
    obtain ⟨⟨u, x⟩, extra, rfl⟩ := List.mem_map.mp there
    cases Heap.key?_eq_text.mp spelt
    exact ((choice.mem_extras perm).mp extra).1 reserved

theorem Choice.sheet_eq :
    (({} : Draft.Options).sheet name h).over h es =
      (optionsOf (fun t => h.under? es (.text t)) (extras options)).sheet name h := by
  have distinct := choice.keys perm
  apply Sheet.ext
  · rw [Sheet.over_name distinct, choice.under?_other perm (by decide)]
    rfl
  · rw [Sheet.over_path distinct]
    rfl
  · exact choice.content_eq perm _ rfl
  · rw [Sheet.over_deps distinct]
    dsimp only [Draft.Options.sheet, optionsOf]
    cases h.under? es (.text "deps") <;> rfl
  · rw [Sheet.over_plugins distinct]
    dsimp only [Draft.Options.sheet]
    rw [choice.picked_eq perm]
    cases h.under? es (.text "plugins") <;> rfl
  · rw [Sheet.over_format distinct]
    dsimp only [Draft.Options.sheet, optionsOf]
    cases h.under? es (.text "type") <;> rfl
  · rw [Sheet.over_referrer distinct]
    rfl
  · exact choice.attributes_eq perm _ rfl

end Maker

def Draft.configured (name : Value) (r : Ref .dict) : Edit Value := do
  return .obj .draft (← Draft.configure (← Draft.create name {}) (.obj .dict r))

theorem Draft.run_configured {r : Ref .dict} {d : Ref .draft} {s : Sheet}
    (made : (Draft.create name {}).run w = (.ok d, v)) (drafted : w.heap.Drafted v.heap d s)
    (live : w.heap.Live r) : Draft.configured name r w =
      match (w.heap.get r).items.forM (fun e => Draft.setOption d e.1 e.2) v with
      | (.ok _, u) => (.ok (.obj .draft d), u)
      | (.error f, u) => (.error f, u) := by
  unfold Draft.configured Draft.configure Draft.configureFrom
  rw [run_bind, run_lift, made, ← drafted.grown.get r live]
  simp only [run_bind, run_lift, Quiet.run_read]
  rcases (v.heap.get r).items.forM (fun e => Draft.setOption d e.1 e.2) v with ⟨_ | _, _⟩ <;> rfl

/-- To make a draft with options and to let a blank draft take them over, in any order, comes to the same. -/
theorem made_as_configured {r : Ref .dict} (named : name.isName) (live : w.heap.Live r)
    (choice : Maker.Choice w.heap options)
    (perm : (w.heap.get r).items.Perm (options.map fun o => (.str o.1.text, o.2))) :
    ∃ s, (Maker.make (.object .draft) { items := [name], named := options }).Yields w s ∧
      (Draft.configured name r).Yields w s := by
  obtain ⟨d, v, made, drafted⟩ := Draft.create_takes (Draft.fits_blank w.heap named)
  have run := Draft.run_configured made drafted live
  have has (e : Value × Value) (mem : e ∈ (w.heap.get r).items) : w.heap.HasItems e.1 e.2 :=
    fun _ => choice.has perm mem
  have fits := choice.fits_iff perm named
  rw [choice.makeDraft_eq perm]
  by_cases takes : ∀ e ∈ (w.heap.get r).items, Draft.Takes w.heap e.1 e.2
  case pos =>
    obtain ⟨u, configured, shown⟩ := Draft.configure_takes drafted has takes
    obtain ⟨e, t, constructed, also⟩ := Draft.create_takes (fits.mpr takes)
    rw [choice.sheet_eq perm] at shown
    refine ⟨some _, ⟨e, t, ?_, also.shows⟩, d, u, ?_, shown.shows⟩
    · rw [run_bind, run_lift, constructed]
      rfl
    · rw [run, configured]
  case neg =>
    obtain ⟨f, u, configured⟩ := Draft.configure_refuses drafted has takes
    obtain ⟨e, t, constructed⟩ := Draft.create_refuses (mt fits.mp takes)
    refine ⟨none, ⟨e, t, ?_⟩, f, u, ?_⟩
    · rw [run_bind, run_lift, constructed]
    · rw [run, configured]

/-- An option that is not the draft's own comes second in the call and last in the mapping. -/
theorem made_as_configured_reordered :
    let w : World := { heap := { dicts := #[Dict.ofTexts
      [("source", .str "x = 1"), ("path", .str "lib/a"), ("size", .int 3)]] } }
    let options : List (Label × Value) := [(⟨"path", some .path⟩, .str "lib/a"), (⟨"size", none⟩, .int 3),
      (⟨"source", some .source⟩, .str "x = 1")]
    ∃ s, (Maker.make (.object .draft) { items := [.str "a"], named := options }).Yields w s ∧
      (Draft.configured (.str "a") ⟨0⟩).Yields w s := by
  intro w options
  have choice : Maker.Choice w.heap options := {
    regular := by decide
    distinct := by decide
    other := by decide
    one := by decide
    given := by decide
    there := by
      intro o mem
      simp only [options, List.mem_cons, List.not_mem_nil, or_false] at mem
      rcases mem with rfl | rfl | rfl <;> trivial }
  exact made_as_configured rfl (by decide) choice (by decide)

end AsyncImport
