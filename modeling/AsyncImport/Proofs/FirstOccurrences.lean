import AsyncImport.Plugin.Basic
import Mathlib.Data.List.Nodup

/-!
# First occurrences

Handlers and patterns are added one by one, and of those that are the same only the first stays. To add
them is hence to append them and to erase what repeats an earlier one.
-/

namespace AsyncImport

theorem nodup_eraseDups {α : Type} [BEq α] [LawfulBEq α] : ∀ as : List α, as.eraseDups.Nodup
  | [] => by simp
  | a :: as => by
    rw [List.eraseDups_cons]
    exact List.nodup_cons.mpr
      ⟨by simp [List.mem_eraseDups], nodup_eraseDups (as.filter fun b => !b == a)⟩
termination_by as => as.length
decreasing_by exact Nat.lt_succ_of_le (List.length_filter_le _ _)

theorem foldl_eraseDupsBy {α : Type} (same : α → α → Bool) (xs acc : List α) :
    xs.foldl (fun acc x => if acc.any (same x) then acc else acc ++ [x]) acc =
      List.eraseDupsBy.loop same xs acc.reverse := by
  induction xs generalizing acc with
  | nil => simp [List.eraseDupsBy.loop]
  | cons x xs ih =>
    rw [List.foldl_cons, ih, List.eraseDupsBy.loop, List.any_reverse]
    cases acc.any (same x) <;> simp

theorem flatMap_of_distinct {α β γ : Type} [DecidableEq γ] {f : α → γ} {g : α → β} {as : List α}
    {a : α} (distinct : (as.map f).Nodup) (mem : a ∈ as) :
    (as.flatMap fun b => if f b = f a then [g b] else []) = [g a] := by
  have nothing {bs : List α} {c : γ} (absent : c ∉ bs.map f) :
      (bs.flatMap fun b => if f b = c then [g b] else []) = [] :=
    List.flatMap_eq_nil_iff.mpr fun b mem =>
      if_neg fun same => absent (List.mem_map.mpr ⟨b, mem, same⟩)
  induction as with
  | nil => cases mem
  | cons b bs ih =>
    obtain ⟨absent, distinct⟩ := List.nodup_cons.mp distinct
    rw [List.flatMap_cons]
    rcases List.mem_cons.mp mem with rfl | later
    · rw [if_pos rfl, nothing absent]
      rfl
    · rw [if_neg fun same => absent (List.mem_map.mpr ⟨a, later, same.symm⟩), ih distinct later]
      rfl

namespace Assoc

variable {κ ν β : Type} [DecidableEq κ]

theorem nodup_insert {m : Assoc κ ν} (distinct : m.keys.Nodup) (k : κ) (v : ν) :
    (m.insert k v).keys.Nodup := by
  rw [keys_insert]
  split
  · exact distinct
  · next new => exact List.concat_eq_append ▸ distinct.concat new

theorem get?_of_mem {m : Assoc κ ν} (distinct : m.keys.Nodup) {e : κ × ν} (mem : e ∈ m.entries) :
    m.get? e.1 = some e.2 := by
  obtain ⟨es⟩ := m
  unfold keys at distinct
  unfold get?
  induction es with
  | nil => cases mem
  | cons c es ih =>
    dsimp only [List.map_cons] at distinct
    obtain ⟨outside, distinct⟩ := List.nodup_cons.mp distinct
    rw [lookup_cons]
    rcases List.mem_cons.mp mem with rfl | later
    · exact if_pos rfl
    · rw [if_neg fun same => outside (List.mem_map.mpr ⟨e, later, same⟩)]
      exact ih distinct later

theorem flatMap_entries {m : Assoc κ (List β)} (distinct : m.keys.Nodup) (k : κ) :
    (m.entries.flatMap fun e => if k = e.1 then e.2 else []) = (m.get? k).getD [] := by
  obtain ⟨es⟩ := m
  unfold keys at distinct
  unfold get?
  induction es with
  | nil => rfl
  | cons e es ih =>
    dsimp only [List.map_cons] at distinct
    obtain ⟨outside, distinct⟩ := List.nodup_cons.mp distinct
    rw [List.flatMap_cons, ih distinct, lookup_cons]
    split
    · next same =>
      subst same
      have absent : es.lookup e.1 = none := by
        refine List.lookup_eq_none_iff.mpr fun c mem => ?_
        exact bne_iff_ne.mpr fun same => outside (List.mem_map.mpr ⟨c, mem, same.symm⟩)
      simp [absent]
    · rfl

theorem insert_get {m : Assoc κ ν} {k : κ} {v : ν} (known : m.get? k = some v) :
    m.insert k v = m := by
  obtain ⟨es⟩ := m
  unfold get? at known
  unfold insert
  congr 1
  induction es with
  | nil => cases known
  | cons e es ih =>
    rw [lookup_cons] at known
    unfold insertEntry
    split
    · next same =>
      rw [if_pos same.symm] at known
      cases known
      rw [← same]
    · next other =>
      rw [if_neg (Ne.symm other)] at known
      rw [ih known]

end Assoc

namespace Handler

/-- Whether two handlers are one: the same function, or a module of the same name. -/
def sameTarget (t u : Handler) : Bool := u.target = t.target

variable {hs ts us : List Handler} {t : Handler}

theorem merge_nil (ts : List Handler) : merge [] ts = ts.eraseDupsBy sameTarget :=
  foldl_eraseDupsBy sameTarget ts []

theorem merge_append (hs ts us : List Handler) :
    merge hs (ts ++ us) = merge (merge hs ts) us := List.foldl_append

theorem prefix_addTo (hs : List Handler) (t : Handler) : hs <+: addTo hs t := by
  unfold addTo
  split
  · exact List.prefix_refl hs
  · exact List.prefix_append hs [t]

theorem prefix_merge (hs ts : List Handler) : hs <+: merge hs ts := by
  induction ts generalizing hs with
  | nil => exact List.prefix_refl hs
  | cons t ts ih => exact (prefix_addTo hs t).trans (ih (addTo hs t))

theorem merge_of_length (none : (merge hs ts).length ≤ hs.length) : merge hs ts = hs :=
  have grown := prefix_merge hs ts
  (grown.eq_of_length (Nat.le_antisymm grown.length_le none)).symm

theorem merge_eq_nil : merge hs ts = [] ↔ hs = [] ∧ ts = [] := by
  constructor
  · intro nothing
    have start : hs = [] := List.prefix_nil.mp (nothing ▸ prefix_merge hs ts)
    subst start
    cases ts with
    | nil => exact ⟨rfl, rfl⟩
    | cons t ts =>
      have first : [t] <+: merge [] (t :: ts) := prefix_merge [t] ts
      rw [nothing] at first
      cases List.prefix_nil.mp first
  · rintro ⟨rfl, rfl⟩
    rfl

theorem mem_merge (hs : List Handler) (mem : t ∈ ts) : ∃ u ∈ merge hs ts, u.target = t.target := by
  induction ts generalizing hs with
  | nil => cases mem
  | cons s ts ih =>
    rcases List.mem_cons.mp mem with rfl | later
    · have first : ∃ u ∈ addTo hs t, u.target = t.target := by
        unfold addTo
        split
        · next there => simpa using there
        · exact ⟨t, by simp, rfl⟩
      obtain ⟨u, there, same⟩ := first
      exact ⟨u, (prefix_merge (addTo hs t) ts).subset there, same⟩
    · exact ih (addTo hs s) later

theorem merge_of_mem (known : ∀ t ∈ ts, ∃ u ∈ hs, u.target = t.target) : merge hs ts = hs := by
  induction ts with
  | nil => rfl
  | cons t ts ih =>
    obtain ⟨u, mem, same⟩ := known t List.mem_cons_self
    have first : addTo hs t = hs := if_pos (List.any_eq_true.mpr ⟨u, mem, by simpa using same⟩)
    show merge (addTo hs t) ts = hs
    rw [first, ih fun t mem => known t (List.mem_cons_of_mem _ mem)]

theorem merge_merge (hs ts : List Handler) : merge (merge hs ts) ts = merge hs ts :=
  merge_of_mem fun _ mem => mem_merge hs mem

end Handler

namespace Matcher

def of (compare : Value) (ps : List String) : Matcher := ({ compare := compare } : Matcher).add ps

theorem patterns_of (compare : Value) (ps : List String) : (of compare ps).patterns = ps.eraseDups := by
  have each (m : Matcher) : (m.add ps).patterns =
      ps.foldl (fun acc x => if acc.any (x == ·) then acc else acc ++ [x]) m.patterns := by
    unfold add
    induction ps generalizing m with
    | nil => rfl
    | cons p ps ih =>
      rw [List.foldl_cons, List.foldl_cons, ih]
      congr 1
      unfold addOne
      by_cases mem : p ∈ m.patterns <;> simp [mem]
  rw [of, each]
  exact foldl_eraseDupsBy _ ps []

end Matcher
end AsyncImport
