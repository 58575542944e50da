import AsyncImport.Proofs.Configuring

/-!
# Drafts as mappings

A draft can be written as a mapping, and a draft that is made of the mapping says the same. That takes a
draft whose attributes have keys of their own; one that was made and configured by the library is such a
draft, as long as its content is one that a draft can have.
-/

namespace AsyncImport

open Edit

variable {b h g : Heap} {w v u : World} {d : Ref .draft} {s : Sheet} {c : Dict}

/-! ## Sound sheets -/

def Value.IsContent : Value → Prop
  | .source x => x.str?.isSome
  | .factory x => x.callable
  | .code _ | .pending => True
  | _ => False

structure Sheet.Sound (s : Sheet) : Prop where
  name : s.name.isName
  content : s.content.IsContent
  attributes : ∀ t ∈ Draft.reserved, s.attributes (.text t) = none

theorem Sheet.Sound.with {label x : Value} (sound : s.Sound) (takes : Draft.Takes h label x)
    (content : label = .str "content" → x.IsContent) : (s.with h label x).Sound where
  name := by
    unfold Sheet.with
    split
    case h_5 => exact takes
    case h_11 => split <;> exact sound.name
    all_goals exact sound.name
  content := by
    unfold Sheet.with
    split
    case h_1 => exact content rfl
    case h_8 => exact takes
    case h_9 => trivial
    case h_10 => exact takes
    case h_11 => split <;> exact sound.content
    all_goals exact sound.content
  attributes t mem := by
    have kept : (s.over h [(label, x)]).attributes (.text t) = s.attributes (.text t) :=
      Sheet.over_reserved s mem
    exact kept.trans (sound.attributes t mem)

namespace Draft

theorem sound_forM {es : List (Value × Value)} (drafted : b.Drafted w.heap d s) (sound : s.Sound)
    (content : ∀ e ∈ es, e.1 = .str "content" → e.2.IsContent)
    (run : es.forM (fun e => setOption d e.1 e.2) w = (.ok (), v)) :
    ∃ t, b.Drafted v.heap d t ∧ t.Sound := by
  induction es generalizing s w with
  | nil =>
    cases run
    exact ⟨s, drafted, sound⟩
  | cons e es ih =>
    rw [run_forM_cons] at run
    by_cases takes : Takes w.heap e.1 e.2
    · obtain ⟨u, first, changed⟩ := setOption_takes drafted takes
      rw [first] at run
      exact ih changed (sound.with takes (content e List.mem_cons_self))
        (fun c mem => content c (List.mem_cons_of_mem _ mem)) run
    · obtain ⟨f, u, first⟩ := setOption_refuses drafted takes
      rw [first] at run
      cases run

end Draft

/-! ## What a mapping says of a draft -/

def Sheet.contentUnder (s : Sheet) (t : String) : Option Value :=
  match t, s.content with
  | "source", .source x => some x
  | "factory", .factory x => some x
  | "code", .code x => some x
  | _, _ => none

namespace Sheet

theorem content_of_under {t : String} {x : Value} (under : s.contentUnder t = some x) :
    s.content = Draft.contentOf t x := by
  unfold contentUnder at under
  split at under <;> cases under <;> assumption

theorem contentUnder_unique {t u : String} {x y : Value} (under : s.contentUnder t = some x)
    (also : s.contentUnder u = some y) : u = t := by
  unfold contentUnder at under also
  split at under <;> split at also <;> simp_all

theorem Sound.pending_of_under (sound : s.Sound)
    (none : ∀ t ∈ Draft.contentWords, ∀ x, s.contentUnder t ≠ some x) : s.content = .pending := by
  have content := sound.content
  unfold Value.IsContent at content
  split at content
  · next x is => exact absurd (by simp [contentUnder, is]) (none "source" (by decide) x)
  · next x is => exact absurd (by simp [contentUnder, is]) (none "factory" (by decide) x)
  · next x is => exact absurd (by simp [contentUnder, is]) (none "code" (by decide) x)
  · assumption
  · contradiction

end Sheet

structure Dict.Writes (h : Heap) (c : Dict) (s : Sheet) : Prop where
  filed : c.Filed h
  name : c.find? (.text "name") = some s.name
  path : c.find? (.text "path") = some s.path
  deps : ∃ r, c.find? (.text "deps") = some (.obj .list r) ∧ h.Live r ∧ h.get r = s.deps
  plugins : ∃ r, c.find? (.text "plugins") = some (.obj .list r) ∧ h.Live r ∧ h.get r = s.plugins
  format : c.find? (.text "type") = some (.format s.format)
  referrer : c.find? (.text "referrer") = some s.referrer
  content : ∀ t ∈ Draft.contentWords, c.find? (.text t) = s.contentUnder t
  attributes : ∀ κ, (∀ t ∈ Draft.reserved, κ ≠ .text t) → c.find? κ = s.attributes κ

theorem Dict.Writes.mono (writes : c.Writes h s) (grown : h.Grown g) : c.Writes g s where
  filed := writes.filed.congr grown.tuples
  name := writes.name
  path := writes.path
  deps := by
    obtain ⟨r, found, live, holds⟩ := writes.deps
    exact ⟨r, found, grown.live r live, (grown.get r live).trans holds⟩
  plugins := by
    obtain ⟨r, found, live, holds⟩ := writes.plugins
    exact ⟨r, found, grown.live r live, (grown.get r live).trans holds⟩
  format := writes.format
  referrer := writes.referrer
  content := writes.content
  attributes := writes.attributes

def Sheet.fields (s : Sheet) (deps plugins : Value) : List (String × Value) :=
  [("name", s.name), ("path", s.path), ("deps", deps), ("plugins", plugins), ("type", .format s.format),
   ("referrer", s.referrer)] ++
    match s.content with
    | .source x => [("source", x)]
    | .factory x => [("factory", x)]
    | .code x => [("code", x)]
    | _ => []

namespace Sheet

variable (s) (x y : Value)

theorem fields_distinct : ((s.fields x y).map Prod.fst).Nodup := by
  unfold fields
  split <;> simp

theorem fields_reserved : ∀ e ∈ s.fields x y, e.1 ∈ Draft.reserved := by
  unfold fields
  split <;> simp [Draft.reserved]

end Sheet

/-- Written over the attributes, the fields make a mapping of the whole sheet. -/
theorem Sheet.Sound.writes {a : Dict} {l p : Ref .list} (sound : s.Sound) (filed : a.Filed h)
    (held : a.find? = s.attributes) (live : h.Live l) (listed : h.get l = s.deps) (alive : h.Live p)
    (picked : h.get p = s.plugins) :
    Dict.Writes h ((s.fields (.obj .list l) (.obj .list p)).foldl
      (fun o e => o.put (Key.text e.1) (.str e.1) e.2) a) s := by
  have found (κ : Key) := Dict.find?_foldl_put (s.fields_distinct (.obj .list l) (.obj .list p)) a κ
  exact {
    filed := filed.foldl_put _
    name := by
      rw [found]
      simp [fields]
    path := by
      rw [found]
      simp [fields]
    deps := ⟨l, by rw [found]; simp [fields], live, listed⟩
    plugins := ⟨p, by rw [found]; simp [fields], alive, picked⟩
    format := by
      rw [found]
      simp [fields]
    referrer := by
      rw [found]
      simp [fields]
    content := by
      intro t word
      have absent : s.attributes (.text t) = none := by
        have words : ∀ t ∈ Draft.contentWords, t ∈ Draft.reserved := by decide
        exact sound.attributes t (words t word)
      rw [found, held, absent]
      simp only [Draft.contentWords, List.mem_cons, List.not_mem_nil, or_false] at word
      rcases word with rfl | rfl | rfl | rfl <;> cases is : s.content <;>
        simp [fields, contentUnder, is]
    attributes := by
      intro κ free
      have absent : ((s.fields (.obj .list l) (.obj .list p)).find? fun e => Key.text e.1 = κ) = none :=
        List.find?_eq_none.mpr fun e mem same =>
          free e.1 (s.fields_reserved _ _ e mem) (of_decide_eq_true same).symm
      rw [found, absent, held]
      rfl }

namespace Draft

theorem run_dictOf (r : Ref .dict) (w : World) :
    (dictOf (.obj .dict r)).run w = (.ok (w.heap.get r), w) := rfl

theorem run_itemsOf (r : Ref .list) (w : World) :
    (items (.obj .list r)).run w = (.ok (w.heap.get r), w) := rfl

theorem run_toOptions (shows : w.heap.Shows d s) :
    ∃ a : Dict, a.Filed w.heap ∧ a.find? = s.attributes ∧
      (toOptions d).run w = (.ok ((s.fields (.obj .list (w.heap.fresh .list))
          (.obj .list ((w.alloc .list s.deps).heap.fresh .list))).foldl
            (fun o e => o.put (Key.text e.1) (.str e.1) e.2) a),
        (w.alloc .list s.deps).alloc .list s.plugins) := by
  obtain ⟨-, tells⟩ := shows
  obtain ⟨l, deps, live, listed⟩ := tells.deps
  obtain ⟨p, plugins, alive, picked⟩ := tells.plugins
  obtain ⟨a, attributes, -, filed, held⟩ := tells.attributes
  refine ⟨_, filed, held, ?_⟩
  unfold toOptions
  rw [Quiet.run_bind, run_bind, Quiet.run_read]
  simp only [attributes, deps, plugins]
  rw [Quiet.run_bind, run_bind, run_dictOf]
  dsimp only
  rw [Quiet.run_bind, run_bind, run_itemsOf]
  dsimp only
  rw [Quiet.run_bind, run_bind, Quiet.run_newList]
  dsimp only
  rw [Quiet.run_bind, run_bind, run_itemsOf, show (w.alloc .list _).heap.get p = _ from Heap.get_alloc_live _ _ alive]
  dsimp only
  rw [Quiet.run_bind, run_bind, Quiet.run_newList]
  dsimp only
  rw [listed, picked, tells.name, tells.path, tells.format, tells.referrer, tells.content]
  rfl

end Draft

/-! ## What is made of a mapping -/

namespace Dict

theorem Filed.erase (filed : c.Filed h) (κ : Key) : Filed h (Assoc.erase c κ) where
  distinct := filed.distinct.sublist (List.filter_sublist.map _)
  filed e mem := filed.filed e (List.mem_of_mem_filter mem)

theorem find?_erase (c : Dict) (κ l : Key) :
    Dict.find? (Assoc.erase c κ) l = if l = κ then none else c.find? l := by
  unfold find?
  rw [Assoc.get?_erase]
  split <;> rfl

end Dict

theorem Heap.itemsIfAny?_list {l : Ref .list} : h.itemsIfAny? (.obj .list l) = some (h.get l) := by
  unfold itemsIfAny?
  split
  · rfl
  · next counts =>
    have size : (h.get l).length = 0 := by simpa [truthy, length?] using counts
    rw [List.length_eq_zero_iff.mp size]

namespace Dict.Writes

variable (writes : c.Writes h s)

include writes

theorem under?_items (κ : Key) : h.under? (Dict.items (Assoc.erase c (.text "name"))) κ =
    if κ = .text "name" then none else c.find? κ := by
  rw [(writes.filed.erase _).under?, Dict.find?_erase]

theorem find?_of_mem {e : Value × Value} {t : String} (mem : e ∈ Dict.items (Assoc.erase c (.text "name")))
    (is : e.1 = .str t) : t ≠ "name" ∧ c.find? (.text t) = some e.2 := by
  have found := (Heap.under?_eq_some (writes.filed.erase (.text "name")).nodup).mpr
    ⟨e, mem, Heap.key?_eq_text.mpr is, rfl⟩
  rw [writes.under?_items] at found
  split at found
  · cases found
  · next other => exact ⟨fun same => other (by rw [same]), found⟩

theorem has {e : Value × Value} (mem : e ∈ Dict.items (Assoc.erase c (.text "name"))) :
    h.HasItems e.1 e.2 := by
  rintro (is | is) <;> obtain ⟨-, known⟩ := writes.find?_of_mem mem is
  · obtain ⟨l, found, live, -⟩ := writes.deps
    rw [Option.some.inj (known.symm.trans found)]
    exact live
  · obtain ⟨p, found, live, -⟩ := writes.plugins
    rw [Option.some.inj (known.symm.trans found)]
    exact live

theorem takes (sound : s.Sound) {label x : Value}
    (mem : (label, x) ∈ Dict.items (Assoc.erase c (.text "name"))) : Draft.Takes h label x := by
  have known {t : String} (is : label = .str t) : t ≠ "name" ∧ c.find? (.text t) = some x :=
    writes.find?_of_mem mem is
  have spelt : (h.key? label).isSome := by
    obtain ⟨entry, inside, same⟩ := List.mem_map.mp mem
    have filed := (writes.filed.erase _).filed entry inside
    rw [same] at filed
    rw [filed]
    rfl
  unfold Draft.Takes
  split
  case h_1 =>
    obtain ⟨p, found, -⟩ := writes.plugins
    rw [Option.some.inj ((known rfl).2.symm.trans found), Heap.itemsIfAny?_list]
    rfl
  case h_2 =>
    rw [Option.some.inj ((known rfl).2.symm.trans writes.format)]
    rfl
  case h_3 => exact absurd rfl (known rfl).1
  case h_4 =>
    have under := (writes.content "source" (by decide)).symm.trans (known rfl).2
    have content := sound.content
    rwa [Sheet.content_of_under under] at content
  case h_5 =>
    have under := (writes.content "factory" (by decide)).symm.trans (known rfl).2
    have content := sound.content
    rwa [Sheet.content_of_under under] at content
  case h_11 => exact spelt
  all_goals trivial

theorem over_content (sound : s.Sound) (u : Sheet) (pending : u.content = .pending) :
    (u.over h (Dict.items (Assoc.erase c (.text "name")))).content = s.content := by
  have distinct := (writes.filed.erase (.text "name")).nodup
  have said {e : Value × Value} {t : String} (mem : e ∈ Dict.items (Assoc.erase c (.text "name")))
      (word : t ∈ Draft.contentWords) (is : e.1 = .str t) : s.contentUnder t = some e.2 :=
    (writes.content t word).symm.trans (writes.find?_of_mem mem is).2
  by_cases about : ∃ t ∈ Draft.contentWords, ∃ x, s.contentUnder t = some x
  case pos =>
    obtain ⟨t, word, x, under⟩ := about
    have other : Key.text t ≠ .text "name" := by
      have words : ∀ t ∈ Draft.contentWords, Key.text t ≠ .text "name" := by decide
      exact words t word
    have found := writes.under?_items (.text t)
    rw [if_neg other, writes.content t word, under] at found
    obtain ⟨e, mem, spelt, rfl⟩ := (Heap.under?_eq_some distinct).mp found
    have is := Heap.key?_eq_text.mp spelt
    have mem : (Value.str t, e.2) ∈ Dict.items (Assoc.erase c (.text "name")) := is ▸ mem
    rw [Sheet.over_content distinct u mem word, Sheet.content_of_under under]
    exact fun f there v about is => Sheet.contentUnder_unique under (said there about is)
  case neg =>
    rw [Sheet.over_content_of_none, pending]
    · exact (sound.pending_of_under fun t word x under => about ⟨t, word, x, under⟩).symm
    · exact fun e mem t word is => about ⟨t, word, e.2, said mem word is⟩

/-- What the options come to is the sheet. -/
theorem over_eq (sound : s.Sound) : (({} : Draft.Options).sheet s.name h).over h
    (Dict.items (Assoc.erase c (.text "name"))) = s := by
  have distinct := (writes.filed.erase (.text "name")).nodup
  have under (t : String) (other : t ≠ "name") :
      h.under? (Dict.items (Assoc.erase c (.text "name"))) (.text t) = c.find? (.text t) := by
    rw [writes.under?_items, if_neg (by simpa using other)]
  apply Sheet.ext
  · rw [Sheet.over_name distinct, writes.under?_items, if_pos rfl]
    rfl
  · rw [Sheet.over_path distinct, under "path" (by decide), writes.path]
    rfl
  · exact writes.over_content sound _ rfl
  · obtain ⟨l, found, -, listed⟩ := writes.deps
    rw [Sheet.over_deps distinct, under "deps" (by decide), found]
    exact listed
  · obtain ⟨p, found, -, picked⟩ := writes.plugins
    rw [Sheet.over_plugins distinct, under "plugins" (by decide), found, Option.map_some,
      Heap.itemsIfAny?_list]
    exact picked
  · rw [Sheet.over_format distinct, under "type" (by decide), writes.format]
    rfl
  · rw [Sheet.over_referrer distinct, under "referrer" (by decide), writes.referrer]
    rfl
  · funext κ
    by_cases free : ∀ t ∈ Draft.reserved, κ ≠ .text t
    · rw [Sheet.over_attributes distinct _ free, writes.under?_items,
        if_neg (free "name" (by decide)), writes.attributes κ free]
      exact Option.or_none
    · push Not at free
      obtain ⟨t, reserved, rfl⟩ := free
      rw [Sheet.over_reserved _ reserved, sound.attributes t reserved]
      rfl

end Dict.Writes

namespace Draft

/-- A draft can be made of a mapping that says what is on a sheet, and says the same. -/
theorem coerce_written {r : Ref .dict} (writes : Dict.Writes w.heap (w.heap.get r) s)
    (sound : s.Sound) (name : Value) :
    ∃ e v, coerce (.obj .dict r) name w = (.ok e, v) ∧ w.heap.Drafted v.heap e s := by
  obtain ⟨e, u, made, drafted⟩ := create_takes (fits_blank w.heap sound.name)
  have takes : ∀ e ∈ Dict.items (Assoc.erase (w.heap.get r) (.text "name")), Takes w.heap e.1 e.2 :=
    fun e mem => writes.takes sound mem
  obtain ⟨v, configured, drafted⟩ := configure_takes drafted (fun e mem => writes.has mem) takes
  rw [writes.over_eq sound] at drafted
  refine ⟨e, v, ?_, drafted⟩
  have given : ((w.heap.get r).find? (Key.text "name")).getD name = s.name := by rw [writes.name]; rfl
  unfold coerce configureFrom
  simp only [run_bind, run_lift, Quiet.run_read, given, made]
  rw [configured]
  rfl

end Draft
end AsyncImport
