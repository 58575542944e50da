import AsyncImport.Draft.Options
import AsyncImport.Proofs.Enrolment
import AsyncImport.Proofs.FirstOccurrences
import AsyncImport.Proofs.HookKeys

/-!
# What a draft says

The sheet of a draft is what its fields say, wherever they lie: dependencies and plugins are the items of
lists, and attributes are a function of their keys, so that drafts with one sheet are equal in all fields
for a host. An option either changes the sheet in one way or is refused, and what it takes does not depend
on the draft.
-/

namespace AsyncImport

open Edit

variable {b h g : Heap} {w v : World} {k : Kind} {d : Ref .draft}

/-! ## Mappings by their keys -/

namespace Heap

theorem key?_eq_text {x : Value} {t : String} : h.key? x = some (Key.text t) ↔ x = .str t := by
  constructor
  · intro spelt
    cases x with
    | str s =>
      cases spelt
      rfl
    | real r =>
      simp only [key?, keyFrom, keyWith] at spelt
      split at spelt <;> cases spelt
    | obj k r =>
      cases k
      case tuple =>
        simp only [key?, keyFrom, keyWith, Option.bind_eq_bind, Option.bind_eq_some_iff] at spelt
        obtain ⟨_, _, spelt⟩ := spelt
        cases spelt
      all_goals simp [key?, keyFrom, keyWith] at spelt
    | _ => simp [key?, keyFrom, keyWith, Option.bind_eq_some_iff] at spelt
  · rintro rfl
    rfl

def under? (h : Heap) (es : List (Value × Value)) (κ : Key) : Option Value :=
  (es.find? fun e => h.key? e.1 = some κ).map Prod.snd

theorem under?_eq_some {es : List (Value × Value)} (distinct : (es.map fun e => h.key? e.1).Nodup)
    {κ : Key} {x : Value} :
    h.under? es κ = some x ↔ ∃ e ∈ es, h.key? e.1 = some κ ∧ e.2 = x := by
  unfold under?
  rw [Option.map_eq_some_iff]
  constructor
  · rintro ⟨e, found, rfl⟩
    exact ⟨e, List.mem_of_find?_eq_some found, by simpa using List.find?_some found, rfl⟩
  · rintro ⟨e, mem, spelt, rfl⟩
    cases found : es.find? fun e => h.key? e.1 = some κ with
    | none => exact absurd (by simpa using spelt) (List.find?_eq_none.mp found e mem)
    | some c =>
      have same : h.key? c.1 = h.key? e.1 := by
        rw [spelt]
        simpa using List.find?_some found
      exact ⟨c, rfl, congrArg Prod.snd
        (List.inj_on_of_nodup_map distinct (List.mem_of_find?_eq_some found) mem same)⟩

theorem under?_eq_none {es : List (Value × Value)} {κ : Key} :
    h.under? es κ = none ↔ ∀ e ∈ es, h.key? e.1 ≠ some κ := by
  simp [under?]

end Heap

namespace Assoc

variable {κ ν : Type} [DecidableEq κ] {m : Assoc κ ν} {k : κ} {e : κ × ν} {x : ν}

theorem mem_entries_of_get? (known : m.get? k = some x) : (k, x) ∈ m.entries := by
  obtain ⟨before, after, split, -⟩ := List.lookup_eq_some_iff.mp known
  simp [split]

theorem mem_entries_insert (mem : e ∈ (m.insert k x).entries) : e = (k, x) ∨ e ∈ m.entries := by
  unfold insert at mem
  dsimp only at mem
  generalize m.entries = es at mem ⊢
  induction es with
  | nil => simpa [insertEntry] using mem
  | cons f es ih =>
    by_cases same : f.1 = k
    · simp only [insertEntry, if_pos same, List.mem_cons] at mem
      exact mem.imp_right (List.mem_cons_of_mem _)
    · simp only [insertEntry, if_neg same, List.mem_cons] at mem
      rcases mem with first | later
      · exact .inr (List.mem_cons.mpr (.inl first))
      · exact (ih later).imp_right (List.mem_cons_of_mem _)

end Assoc

namespace Dict

variable {c : Dict} {κ : Key} {label x : Value}

structure Filed (h : Heap) (c : Dict) : Prop where
  distinct : c.keys.Nodup
  filed : ∀ e ∈ c.entries, h.key? e.2.1 = some e.1

theorem Filed.congr (filed : c.Filed h) (same : g.table .tuple = h.table .tuple) : c.Filed g where
  distinct := filed.distinct
  filed e mem := (Heap.key?_of_tuples same _).trans (filed.filed e mem)

theorem filed_empty (h : Heap) : Filed h {} := ⟨.nil, fun _ mem => by cases mem⟩

theorem Filed.put (filed : c.Filed h) (spelt : h.key? label = some κ) (x : Value) :
    (c.put κ label x).Filed h where
  distinct := Assoc.nodup_insert filed.distinct _ _
  filed e mem := by
    rcases Assoc.mem_entries_insert mem with rfl | old
    · cases known : c.get? κ with
      | none => simpa [known] using spelt
      | some y => simpa [known] using filed.filed _ (Assoc.mem_entries_of_get? known)
    · exact filed.filed e old

theorem Filed.foldl_put (filed : c.Filed h) (es : List (String × Value)) :
    (es.foldl (fun o e => o.put (Key.text e.1) (.str e.1) e.2) c).Filed h := by
  induction es generalizing c with
  | nil => exact filed
  | cons e es ih => exact ih (filed.put rfl e.2)

theorem filed_ofTexts (h : Heap) (es : List (String × Value)) : (ofTexts es).Filed h :=
  (filed_empty h).foldl_put es

theorem Filed.under? (filed : c.Filed h) (κ : Key) : h.under? c.items κ = c.find? κ := by
  have each := filed.filed
  unfold Heap.under? items Assoc.values find? Assoc.get?
  generalize c.entries = es at each ⊢
  induction es with
  | nil => rfl
  | cons e es ih =>
    have spelt := each e List.mem_cons_self
    have rest := ih fun f mem => each f (List.mem_cons_of_mem _ mem)
    rw [Assoc.lookup_cons, List.map_cons, List.find?_cons, spelt]
    by_cases same : κ = e.1
    · simp [same]
    · simpa [same, Ne.symm same] using rest

theorem Filed.nodup (filed : c.Filed h) : (c.items.map fun e => h.key? e.1).Nodup := by
  have keys : (c.items.map fun e => h.key? e.1) = c.keys.map some := by
    unfold items Assoc.values Assoc.keys
    simp only [List.map_map]
    exact List.map_congr_left fun e mem => filed.filed e mem
  rw [keys]
  exact filed.distinct.map fun _ _ => Option.some.inj

end Dict
/-! ## Sheets -/

/-- What a draft says, wherever it says it. -/
@[ext]
structure Sheet where
  name : Value
  path : Value := .none
  content : Value := .pending
  deps : List Value := []
  plugins : List Value := []
  format : Format := .unknown
  referrer : Value := .none
  attributes : Key → Option Value := fun _ => none

structure Draft.Tells (h : Heap) (c : Draft) (s : Sheet) : Prop where
  name : c.name = s.name
  path : c.path = s.path
  content : c.content = s.content
  deps : ∃ r, c.deps = .obj .list r ∧ h.Live r ∧ h.get r = s.deps
  plugins : ∃ r, c.plugins = .obj .list r ∧ h.Live r ∧ h.get r = s.plugins
  format : c.format = .format s.format
  referrer : c.referrer = s.referrer
  attributes : ∃ r, c.attributes = .obj .dict r ∧ h.Live r ∧ (h.get r).Filed h ∧
    (h.get r).find? = s.attributes

structure Heap.Shows (h : Heap) (d : Ref .draft) (s : Sheet) : Prop where
  live : h.Live d
  tells : (h.get d).Tells h s

structure Heap.Grown (h g : Heap) : Prop where
  live : ∀ {k : Kind} (r : Ref k), h.Live r → g.Live r
  get : ∀ {k : Kind} (r : Ref k), h.Live r → g.get r = h.get r
  tuples : g.table .tuple = h.table .tuple

structure Heap.Drafted (b h : Heap) (d : Ref .draft) (s : Sheet) : Prop where
  shows : h.Shows d s
  grown : b.Grown h
  new : ¬ b.Live d
  own : ∀ r : Ref .dict, (h.get d).attributes = .obj .dict r → ¬ b.Live r

namespace Heap.Grown

theorem refl (h : Heap) : h.Grown h := ⟨fun _ live => live, fun _ _ => rfl, rfl⟩

theorem trans (first : b.Grown h) (next : h.Grown g) : b.Grown g where
  live r live := next.live r (first.live r live)
  get r live := (next.get r (first.live r live)).trans (first.get r live)
  tuples := next.tuples.trans first.tuples

theorem alloc (h : Heap) (c : Cell k) (ne : Kind.tuple ≠ k) : h.Grown (h.alloc k c) where
  live {l} r live := by
    by_cases same : l = k
    · subst same
      exact Heap.live_alloc.mpr (.inl live)
    · exact (Heap.live_alloc_kind same).mpr live
  get {l} r live := by
    by_cases same : l = k
    · subst same
      exact Heap.get_alloc_live _ _ live
    · exact Heap.get_alloc_kind _ _ same
  tuples := Heap.table_setTable_ne _ _ ne

theorem set (grown : b.Grown h) {r : Ref k} (new : ¬ b.Live r) (c : Cell k) (ne : Kind.tuple ≠ k) :
    b.Grown (h.set r c) where
  live s live := Heap.live_set.mpr (grown.live s live)
  get {l} s live := by
    refine Eq.trans ?_ (grown.get s live)
    by_cases same : l = k
    · subst same
      refine Heap.get_set_ne _ _ ?_
      rintro rfl
      exact new live
    · exact Heap.get_set_kind _ _ same
  tuples := (Heap.table_setTable_ne _ _ ne).trans grown.tuples

end Heap.Grown

variable {s t : Sheet}

theorem Draft.Tells.congr {c : Draft} (tells : c.Tells h s)
    (live : ∀ {k : Kind} (r : Ref k), k ≠ .draft → h.Live r → g.Live r)
    (get : ∀ {k : Kind} (r : Ref k), k ≠ .draft → h.Live r → g.get r = h.get r)
    (tuples : g.table .tuple = h.table .tuple) : c.Tells g s where
  name := tells.name
  path := tells.path
  content := tells.content
  deps := by
    obtain ⟨r, is, lives, holds⟩ := tells.deps
    exact ⟨r, is, live r (by decide) lives, (get r (by decide) lives).trans holds⟩
  plugins := by
    obtain ⟨r, is, lives, holds⟩ := tells.plugins
    exact ⟨r, is, live r (by decide) lives, (get r (by decide) lives).trans holds⟩
  format := tells.format
  referrer := tells.referrer
  attributes := by
    obtain ⟨r, is, lives, filed, holds⟩ := tells.attributes
    rw [← get r (by decide) lives] at filed holds
    exact ⟨r, is, live r (by decide) lives, filed.congr tuples, holds⟩

theorem Draft.Tells.mono {c : Draft} (tells : c.Tells h s) (grown : h.Grown g) : c.Tells g s :=
  tells.congr (fun r _ => grown.live r) (fun r _ => grown.get r) grown.tuples

theorem Draft.Tells.setDraft {c : Draft} (tells : c.Tells h s) (d : Ref .draft) (x : Draft) :
    c.Tells (h.set d x) s :=
  tells.congr (fun _ _ => Heap.live_set.mpr) (fun _ ne _ => Heap.get_set_kind _ _ ne)
    (Heap.table_setTable_ne _ _ (by decide))

namespace Heap

theorem Shows.mono (shows : h.Shows d s) (grown : h.Grown g) : g.Shows d s where
  live := grown.live d shows.live
  tells := by
    rw [grown.get d shows.live]
    exact shows.tells.mono grown

namespace Drafted

variable (drafted : b.Drafted h d s)

include drafted

theorem mono (grown : h.Grown g) : b.Drafted g d s where
  shows := drafted.shows.mono grown
  grown := drafted.grown.trans grown
  new := drafted.new
  own r is := drafted.own r (grown.get d drafted.shows.live ▸ is)

theorem since (grown : g.Grown b) : g.Drafted h d s where
  shows := drafted.shows
  grown := grown.trans drafted.grown
  new live := drafted.new (grown.live d live)
  own r is live := drafted.own r is (grown.live r live)

theorem setDraft {c : Draft} (tells : c.Tells h t) (same : c.attributes = (h.get d).attributes) :
    b.Drafted (h.set d c) d t where
  shows := {
    live := live_set.mpr drafted.shows.live
    tells := by
      rw [get_set_self _ _ drafted.shows.live]
      exact tells.setDraft d c }
  grown := drafted.grown.set drafted.new c (by decide)
  new := drafted.new
  own r is := by
    rw [get_set_self _ _ drafted.shows.live, same] at is
    exact drafted.own r is

theorem setAttribute {r : Ref .dict} {label : Value} {κ : Key}
    (is : (h.get d).attributes = .obj .dict r) (spelt : h.key? label = some κ) (x : Value) :
    b.Drafted (h.set r ((h.get r).put κ label x)) d
      { s with attributes := Function.update s.attributes κ (some x) } := by
  have tells := drafted.shows.tells
  obtain ⟨a, held, live, filed, holds⟩ := tells.attributes
  obtain rfl : r = a := by
    rw [is] at held
    cases held
    rfl
  have other {l : Kind} (ne : l ≠ .dict) (s : Ref l) (c : Dict) : (h.set r c).get s = h.get s :=
    get_set_kind _ _ ne
  exact {
    shows := {
      live := live_set.mpr drafted.shows.live
      tells := by
        rw [other (by decide)]
        exact {
          name := tells.name
          path := tells.path
          content := tells.content
          deps := by
            obtain ⟨l, is, live, holds⟩ := tells.deps
            exact ⟨l, is, live_set.mpr live, (other (by decide) l _).trans holds⟩
          plugins := by
            obtain ⟨l, is, live, holds⟩ := tells.plugins
            exact ⟨l, is, live_set.mpr live, (other (by decide) l _).trans holds⟩
          format := tells.format
          referrer := tells.referrer
          attributes := by
            refine ⟨r, is, live_set.mpr live, ?_, ?_⟩ <;> rw [get_set_self _ _ live]
            · exact (filed.put spelt x).congr (table_setTable_ne _ _ (by decide))
            · funext l
              show _ = Function.update s.attributes κ (some x) l
              rw [Settings.find?_put, Function.update_apply, holds] } }
    grown := drafted.grown.set (drafted.own r is) _ (by decide)
    new := drafted.new
    own := fun a held => drafted.own a (by rwa [other (by decide)] at held) }

end Drafted
end Heap
end AsyncImport
