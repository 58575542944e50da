import AsyncImport.Manager.Providers
import AsyncImport.Proofs.Restoring

/-!
# Requested names

A requested name is split at the delimiter of the manager's settings, from left to right: whatever comes
before the last delimiter names plugins, and the rest is what the default resolver takes for the path.
-/

namespace AsyncImport

/-! ## Splitting a text -/

namespace Text

variable {d s p q t : List Char} {ps qs : List (List Char)}

/-- No occurrence of the delimiter starts further left than after a prefix. -/
def Leftmost (d p s : List Char) : Prop :=
  ∀ a b, p ++ d ++ s = a ++ d ++ b → p.length ≤ a.length

inductive Splits (d : List Char) : List Char → List (List Char) → Prop
  | last {s : List Char} (free : ¬ d <:+: s) : Splits d s [s]
  | part {p s : List Char} {ps : List (List Char)} (leftmost : Leftmost d p s) (rest : Splits d s ps) :
      Splits d (p ++ d ++ s) (p :: ps)

theorem Leftmost.cons {c : Char} (leftmost : Leftmost d p s) (no : ¬ d <+: c :: (p ++ d ++ s)) :
    Leftmost d (c :: p) s := by
  intro a b same
  cases a with
  | nil => exact absurd ⟨b, same.symm⟩ no
  | cons x a =>
    have later : p ++ d ++ s = a ++ d ++ b := by simpa using (List.cons.inj same).2
    exact Nat.succ_le_succ (leftmost a b later)

theorem Splits.cons {c : Char} (splits : Splits d s ps) (no : ¬ d <+: c :: s) :
    Splits d (c :: s) (consFirst c ps) := by
  cases splits with
  | last free =>
    refine .last fun inside => ?_
    rcases List.infix_cons_iff.mp inside with first | later
    · exact no first
    · exact free later
  | part leftmost rest => exact .part (leftmost.cons no) rest

theorem splits_parts (proper : d ≠ []) (skip : Nat) (s : List Char) :
    Splits d (s.drop skip) (parts d skip s) := by
  induction skip, s using parts.induct d with
  | case1 skip =>
    rw [List.drop_nil, parts]
    exact .last fun inside => proper (List.infix_nil.mp inside)
  | case2 skip c s ih => simpa [parts] using ih
  | case3 c s first ih =>
    obtain ⟨t, whole⟩ := List.isPrefixOf_iff_prefix.mp first
    have rest : s.drop (d.length - 1) = t := by
      obtain ⟨x, d, rfl⟩ := List.exists_cons_of_ne_nil proper
      obtain ⟨-, rfl⟩ := List.cons.inj whole
      simp
    rw [List.drop_zero, parts, if_pos first, ← whole]
    rw [rest] at ih
    exact .part (p := []) (fun _ _ _ => Nat.zero_le _) ih
  | case4 c s other ih =>
    rw [List.drop_zero, parts, if_neg other]
    exact ih.cons (mt List.isPrefixOf_iff_prefix.mpr other)

/-- A text is split in one way. -/
theorem Splits.unique (splits : Splits d s ps) (also : Splits d s qs) : ps = qs := by
  induction splits generalizing qs with
  | last free =>
    cases also with
    | last => rfl
    | part => exact absurd ⟨_, _, rfl⟩ free
  | @part p s ps leftmost rest ih =>
    generalize whole : p ++ d ++ s = t at also
    cases also with
    | last free => exact absurd ⟨p, s, whole⟩ free
    | @part q t qs other more =>
      -- Each of the two first occurrences is no further right than the other.
      have length : p.length = q.length := Nat.le_antisymm (leftmost q t whole) (other p s whole.symm)
      rw [List.append_assoc, List.append_assoc] at whole
      obtain ⟨rfl, same⟩ := List.append_inj whole length
      obtain rfl := List.append_cancel_left same
      rw [ih more]

theorem Splits.free (proper : d ≠ []) (splits : Splits d s ps) : ∀ p ∈ ps, ¬ d <:+: p := by
  induction splits with
  | last free =>
    intro p mem
    rw [List.mem_singleton] at mem
    rwa [mem]
  | @part p s ps leftmost rest ih =>
    intro q mem
    rcases List.mem_cons.mp mem with rfl | later
    · rintro ⟨a, b, rfl⟩
      have left := leftmost a (b ++ d ++ s) (by simp)
      have length := List.length_pos_iff.mpr proper
      simp only [List.length_append] at left
      omega
    · exact ih q later

theorem Splits.ne_nil (splits : Splits d s ps) : ps ≠ [] := by
  cases splits <;> exact List.cons_ne_nil _ _

theorem leftmost_of_disjoint (proper : d ≠ []) (apart : p.Disjoint d) (s : List Char) :
    Leftmost d p s := by
  intro a b same
  rw [List.append_assoc, List.append_assoc] at same
  rcases List.append_eq_append_iff.mp same with ⟨e, rfl, -⟩ | ⟨e, rfl, inside⟩
  · simp
  · cases e with
    | nil => simp
    | cons x e =>
      obtain ⟨y, d, rfl⟩ := List.exists_cons_of_ne_nil proper
      obtain ⟨rfl, -⟩ := List.cons.inj inside
      exact absurd List.mem_cons_self (apart (by simp))

/-- Parts that have no character in common with the delimiter are found again. -/
theorem splits_intercalate (proper : d ≠ []) (some : ps ≠ []) (apart : ∀ p ∈ ps, p.Disjoint d) :
    Splits d (d.intercalate ps) ps := by
  induction ps with
  | nil => contradiction
  | cons p ps ih =>
    have first := apart p List.mem_cons_self
    cases ps with
    | nil =>
      rw [List.intercalate_singleton]
      refine .last fun inside => ?_
      obtain ⟨x, d, rfl⟩ := List.exists_cons_of_ne_nil proper
      exact first (inside.subset List.mem_cons_self) List.mem_cons_self
    | cons q ps =>
      rw [List.intercalate_cons_cons]
      exact .part (leftmost_of_disjoint proper first _)
        (ih (List.cons_ne_nil _ _) fun r mem => apart r (List.mem_cons_of_mem _ mem))

/-- The parts of a name before the last one name plugins, and the last one is the target; an empty part is
passed over, and the whole name stands in for an empty target. -/
def Names (d n : String) (plugins : List String) (target : String) : Prop :=
  ∃ before last, Splits d.toList n.toList ((before ++ [last]).map String.toList) ∧
    plugins = before.filter (· ≠ "") ∧ target = if last = "" then n else last

section Names

variable {d n t : String} {ps : List String}

theorem splits_split (proper : d ≠ "") (n : String) :
    Splits d.toList n.toList ((split d n).map String.toList) := by
  have scanned := splits_parts (by simpa using proper : d.toList ≠ []) 0 n.toList
  simpa [split, Function.comp_def] using scanned

example : split "!!" "!!css!!!less!!!!" = ["", "css", "!less", "", ""] := by decide

theorem Names.plugins (proper : d ≠ "") (names : Names d n ps t) :
    ∀ p ∈ ps, p ≠ "" ∧ ¬ d.toList <:+: p.toList := by
  obtain ⟨before, last, splits, rfl, -⟩ := names
  intro p mem
  obtain ⟨there, some⟩ := List.mem_filter.mp mem
  refine ⟨by simpa using some, splits.free (by simpa using proper) _ ?_⟩
  exact List.mem_map_of_mem (List.mem_append_left _ there)

theorem Names.target (named : n ≠ "") (names : Names d n ps t) : t ≠ "" := by
  obtain ⟨-, last, -, -, rfl⟩ := names
  split
  · exact named
  · assumption

/-- Names that are put together are taken apart again. -/
theorem Names.of_intercalate {qs : List String} {u : String} (proper : d ≠ "")
    (names : Names d (d.intercalate (qs ++ [u])) ps t)
    (apart : ∀ q ∈ qs ++ [u], q ≠ "" ∧ q.toList.Disjoint d.toList) : ps = qs ∧ t = u := by
  obtain ⟨before, last, splits, rfl, rfl⟩ := names
  have again : Splits d.toList (d.intercalate (qs ++ [u])).toList ((qs ++ [u]).map String.toList) := by
    rw [String.toList_intercalate]
    refine splits_intercalate (by simpa using proper) (by simp) fun p mem => ?_
    obtain ⟨q, there, rfl⟩ := List.mem_map.mp mem
    exact (apart q there).2
  -- A text has one split, so that the parts are those that were put together.
  have same : before ++ [last] = qs ++ [u] :=
    List.map_injective_iff.mpr (fun _ _ => String.toList_inj.mp) (splits.unique again)
  obtain ⟨rfl, rfl⟩ := List.append_singleton_inj.mp same
  have some : last ≠ "" := (apart last (by simp)).1
  refine ⟨List.filter_eq_self.mpr fun q mem => ?_, if_neg some⟩
  simpa using (apart q (List.mem_append_left _ mem)).1

end Names

end Text

/-! ## The draft of a requested name -/

open Edit

variable {w : World} {m : Ref .manager} {d n : String} {parent referrer : Value}

/-- The settings of a manager split names at a delimiter. -/
def Heap.Delimits (h : Heap) (m : Ref .manager) (d : String) : Prop :=
  ∃ s, (h.get m).settings = .obj .settings s ∧ (h.get s).pluginDelimiter = .str d

def Heap.Refers (h : Heap) (parent referrer : Value) : Prop :=
  parent = .none ∧ referrer = .none ∨ ∃ d, parent = .obj .draft d ∧ referrer = (h.get d).name

def Sheet.requested (name : String) (referrer : Value) (plugins : List String) (target : String) : Sheet where
  name := .str name
  plugins := plugins.map .str
  referrer := referrer
  attributes := (Dict.ofTexts [("target", .str target)]).find?

namespace Manager

theorem run_createDraft {before : List String} {last : String} (delimits : w.heap.Delimits m d)
    (proper : d ≠ "") (refers : w.heap.Refers parent referrer) (parts : Text.split d n = before ++ [last]) :
    (createDraft m (.str n) parent).run w = (Draft.create (.str n) {
        plugins := .obj .list (w.heap.fresh .list), referrer := referrer
        attributes := [("target", .str (if last = "" then n else last))] }).run
      (w.alloc .list ((before.filter (· ≠ "")).map .str)) := by
  obtain ⟨s, settings, delimiter⟩ := delimits
  have some : d.isEmpty = false := by simpa using proper
  have split : (nameParts (.str n) (.str d)).run w = (.ok (before ++ [last]), w) := by
    simp only [nameParts, some, parts]
    rfl
  have counts (p : String) : (!p.isEmpty) = decide (p ≠ "") := by by_cases empty : p = "" <;> simp [empty]
  have target : (if last.isEmpty then .str n else .str last) = Value.str (if last = "" then n else last) := by
    by_cases empty : last = "" <;> simp [empty]
  unfold createDraft
  simp only [← target, ← counts]
  rcases refers with ⟨rfl, rfl⟩ | ⟨p, rfl, rfl⟩
  · simp [run_bind, settings, delimiter, split]
  · have kept (xs : List Value) : (w.alloc .list xs).heap.get p = w.heap.get p :=
      Heap.get_alloc_kind _ _ (by decide)
    simp [run_bind, settings, delimiter, split, nameOf, kept]

/-- What the draft of a requested name says before anything is asked about it. -/
theorem createDraft_shows (delimits : w.heap.Delimits m d) (proper : d ≠ "") (named : n ≠ "")
    (refers : w.heap.Refers parent referrer) :
    ∃ e v ps t, (createDraft m (.str n) parent).run w = (.ok e, v) ∧ Text.Names d n ps t ∧
      w.heap.Drafted v.heap e (.requested n referrer ps t) := by
  have splits := Text.splits_split proper n
  obtain ⟨before, last, parts⟩ : ∃ before last, Text.split d n = before ++ [last] := by
    have some : Text.split d n ≠ [] := by simpa using splits.ne_nil
    exact ⟨_, _, (List.dropLast_append_getLast some).symm⟩
  rw [parts] at splits
  let ps := before.filter (· ≠ "")
  let t := if last = "" then n else last
  let o : Draft.Options := {
    plugins := .obj .list (w.heap.fresh .list), referrer := referrer, attributes := [("target", .str t)] }
  let u := w.alloc .list (ps.map .str)
  have grown : w.heap.Grown u.heap := .alloc _ (k := .list) _ (by decide)
  have listed : u.heap.get (w.heap.fresh .list) = ps.map .str := Heap.get_alloc_fresh _ _
  have picked : o.picked u.heap = some (ps.map .str) := by
    have later : u.heap.Grown (u.heap.alloc .list []) := .alloc _ (k := .list) _ (by decide)
    show (u.heap.alloc .list []).itemsIfAny? (.obj .list (w.heap.fresh .list)) = _
    rw [Heap.itemsIfAny?_list, later.get _ (Heap.live_fresh_alloc _ _), listed]
  have fits : o.Fits (.str n) u.heap := {
    name := by simpa [Value.isName] using named
    plugins := by rw [picked]; rfl
    format := rfl
    source := .inl rfl
    factory := .inl rfl }
  obtain ⟨e, v, made, drafted⟩ := Draft.create_takes fits
  have sheet : o.sheet (.str n) u.heap = .requested n referrer ps t := by
    unfold Draft.Options.sheet Sheet.requested
    rw [picked]
    rfl
  rw [sheet] at drafted
  exact ⟨e, v, ps, t, (run_createDraft delimits proper refers parts).trans made,
    ⟨before, last, splits, rfl, rfl⟩, drafted.since grown⟩

theorem resolve_shows {b : Heap} {e : Ref .draft} {ps : List String} {t : String}
    (drafted : b.Drafted w.heap e (.requested n referrer ps t)) :
    ∃ v, (do Draft.merge e (← defaultResolve (.obj .draft e)) : Edit (Ref .draft)) w = (.ok e, v) ∧
      b.Drafted v.heap e { Sheet.requested n referrer ps t with path := .str t } := by
  obtain ⟨r, attributes, -, -, holds⟩ := drafted.shows.tells.attributes
  let c := Dict.ofTexts [("path", .str t)]
  let u := w.alloc .dict c
  have target : (w.heap.get r).find? (Key.text "target") = some (.str t) := by
    rw [holds]
    rfl
  have answer : (defaultResolve (.obj .draft e)).run w = (.ok (.obj .dict (w.heap.fresh .dict)), u) := by
    simp [defaultResolve, asDraft, run_bind, attributes, Heap.dict?, target, u, c]
  have grown : w.heap.Grown u.heap := .alloc _ (k := .dict) c (by decide)
  have given : u.heap.get (w.heap.fresh .dict) = c := Heap.get_alloc_fresh _ _
  have only : ∀ o ∈ c.items, o = (.str "path", .str t) := fun o mem => List.mem_singleton.mp mem
  have has : ∀ o ∈ c.items, b.HasItems o.1 o.2 := by
    intro o mem
    rw [only o mem]
    exact fun listed => absurd listed (by simp)
  have takes : ∀ o ∈ c.items, Draft.Takes b o.1 o.2 := by
    intro o mem
    rw [only o mem]
    trivial
  obtain ⟨v, configured, later⟩ := Draft.configure_takes (drafted.mono grown) has takes
  refine ⟨v, ?_, later⟩
  rw [run_bind, run_lift, answer]
  simp only [Draft.merge, Draft.configure, Draft.configureFrom, run_bind, run_lift, Quiet.run_read, given,
    configured]
  rfl

end Manager

/-- The draft of a requested name bears the full name. Its plugins and its target are what the name is split
into, so that plugins and a target that are put together are found again, and the default resolver goes by
the target. -/
theorem names_recovered (delimits : w.heap.Delimits m d) (proper : d ≠ "") (named : n ≠ "")
    (refers : w.heap.Refers parent referrer) :
    ∃ e v ps t, (Manager.createDraft m (.str n) parent).run w = (.ok e, v) ∧
      v.heap.Shows e (.requested n referrer ps t) ∧
      Text.Names d n ps t ∧ (∀ p ∈ ps, p ≠ "" ∧ ¬ d.toList <:+: p.toList) ∧ t ≠ "" ∧
      (∀ qs u, n = d.intercalate (qs ++ [u]) →
        (∀ q ∈ qs ++ [u], q ≠ "" ∧ q.toList.Disjoint d.toList) → ps = qs ∧ t = u) ∧
      ∃ u, (do Draft.merge e (← defaultResolve (.obj .draft e)) : Edit (Ref .draft)) v = (.ok e, u) ∧
        u.heap.Shows e { Sheet.requested n referrer ps t with path := .str t } := by
  obtain ⟨e, v, ps, t, made, names, drafted⟩ := Manager.createDraft_shows delimits proper named refers
  obtain ⟨u, resolved, moved⟩ := Manager.resolve_shows drafted
  refine ⟨e, v, ps, t, made, drafted.shows, names, names.plugins proper, names.target named, ?_,
    u, resolved, moved.shows⟩
  rintro qs u rfl apart
  exact names.of_intercalate proper apart

/-- Two plugins and a file, put together with two characters. -/
theorem names_recovered_prefixed :
    let w : World := { heap := {
      settings := #[{ pluginDelimiter := .str "!!", ignore := .none }]
      managers := #[{ settings := .obj .settings ⟨0⟩, events := .none, resolver := .none, fetcher := .none
                      compiler := .none, linker := .none, rules := ⟨0⟩, plugins := ⟨0⟩, loader := ⟨0⟩ }] } }
    let sheet : Sheet := .requested "css!!less!!a.less" .none ["css", "less"] "a.less"
    ∃ e v u, (Manager.createDraft ⟨0⟩ (.str "css!!less!!a.less") .none).run w = (.ok e, v) ∧
      v.heap.Shows e sheet ∧
      (do Draft.merge e (← defaultResolve (.obj .draft e)) : Edit (Ref .draft)) v = (.ok e, u) ∧
      u.heap.Shows e { sheet with path := .str "a.less" } := by
  intro w sheet
  have delimits : w.heap.Delimits ⟨0⟩ "!!" := ⟨⟨0⟩, rfl, rfl⟩
  obtain ⟨e, v, ps, t, made, shows, -, -, -, again, u, resolved, moved⟩ :=
    names_recovered (n := "css!!less!!a.less") delimits (by decide) (by decide) (.inl ⟨rfl, rfl⟩)
  have apart : ∀ q ∈ ["css", "less"] ++ ["a.less"], q ≠ "" ∧ ∀ c ∈ q.toList, c ∉ "!!".toList := by simp
  obtain ⟨rfl, rfl⟩ := again ["css", "less"] "a.less" (by decide)
    fun q mem => ⟨(apart q mem).1, fun c => (apart q mem).2 c⟩
  exact ⟨e, v, u, made, shows, resolved, moved⟩

end AsyncImport
