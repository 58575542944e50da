import AsyncImport.Toml.Reader
import AsyncImport.Proofs.Configuring
import Mathlib.Data.List.Basic

/-!
# What documents hold

A document holds texts, numbers, truth values, moments, and lists and tables of these (`content_read?`),
however it is written.
-/

namespace AsyncImport.Toml

variable {α β : Type} {P : α → Prop} {d : Data} {t u : Table}

inductive Content : Data → Prop
  | bool (b : Bool) : Content (.bool b)
  | int (i : Int) : Content (.int i)
  | real (x : Binary) : Content (.real x)
  | str (s : String) : Content (.str s)
  | moment (type shown spoken : String) : Content (.atom (.moment type shown spoken) type shown spoken)
  | list {xs : List Data} (items : ∀ x ∈ xs, Content x) : Content (.list xs)
  | table {ns : List String} {xs : List Data} (items : ∀ x ∈ xs, Content x) : Content (.dict (ns.map .str) xs)

/-! ## Tables -/

namespace Table

def Holds (t : Table) : Prop := ∀ e ∈ t.entries, Content e.2

def Allowed (f : Table → Option Table) : Prop := ∀ t u, Holds t → f t = some u → Holds u

theorem holds_empty : Holds {} := fun _ mem => nomatch mem

theorem Holds.content (holds : t.Holds) : Content t.toData := by
  refine .table fun x mem => ?_
  obtain ⟨e, there, rfl⟩ := List.mem_map.mp mem
  exact holds e there

theorem Holds.get? (holds : t.Holds) {k : String} (found : t.get? k = some d) : Content d :=
  holds _ (Assoc.mem_entries_of_get? found)

theorem Holds.insert (holds : t.Holds) (k : String) (content : Content d) : Holds (Assoc.insert t k d) := by
  intro e mem
  rcases Assoc.mem_entries_insert mem with rfl | old
  · exact content
  · exact holds e old

theorem holds_ofData? (content : Content d) (is : ofData? d = some t) : t.Holds := by
  cases content with
  | @table ns xs items =>
    cases is
    intro e mem
    exact items e.2 (List.of_mem_zip mem).2
  | _ => cases is

theorem content_changeWithin {arrays : Bool} {f : Table → Option Table} (allowed : Allowed f)
    (content : Content d) {e : Data} (changed : changeWithin arrays f d = some e) : Content e := by
  unfold changeWithin at changed
  split at changed
  · next items =>
    cases content with
    | list each =>
      split at changed
      · cases changed
      simp only [Option.bind_eq_bind, Option.bind_eq_some_iff, Option.pure_def, Option.some.injEq] at changed
      obtain ⟨last, is, t, there, u, done, rfl⟩ := changed
      have held := allowed t u (holds_ofData? (each last (List.mem_of_getLast? is)) there) done
      refine .list fun x mem => ?_
      rcases List.mem_append.mp mem with old | new
      · exact each x ((List.dropLast_sublist items).subset old)
      · exact List.mem_singleton.mp new ▸ held.content
  · simp only [Option.bind_eq_bind, Option.bind_eq_some_iff, Option.pure_def, Option.some.injEq] at changed
    obtain ⟨t, there, u, done, rfl⟩ := changed
    exact (allowed t u (holds_ofData? content there) done).content

theorem allowed_changeAt {arrays : Bool} {f : Table → Option Table} (allowed : Allowed f) (path : Path) :
    Allowed (changeAt arrays f path) := by
  induction path with
  | nil => exact allowed
  | cons k path ih =>
    intro t u holds changed
    unfold changeAt at changed
    cases known : t.get? k with
    | none =>
      simp only [known, Option.bind_eq_bind, Option.bind_eq_some_iff, Option.pure_def, Option.some.injEq] at changed
      obtain ⟨v, done, rfl⟩ := changed
      exact holds.insert k (ih {} v holds_empty done).content
    | some d =>
      simp only [known, Option.bind_eq_bind, Option.bind_eq_some_iff, Option.pure_def, Option.some.injEq] at changed
      obtain ⟨e, done, rfl⟩ := changed
      exact holds.insert k (content_changeWithin ih (holds.get? known) done)

theorem allowed_some : Allowed some := by
  rintro t u holds ⟨⟩
  exact holds

theorem allowed_add (k : String) (content : Content d) : Allowed (add k d) := by
  intro t u holds added
  unfold add at added
  split at added
  · cases added
  · cases added
    exact holds.insert k content

theorem allowed_addItem (k : String) : Allowed (addItem k) := by
  intro t u holds added
  unfold addItem at added
  split at added
  · cases added
    exact holds.insert k (.list fun x mem => List.mem_singleton.mp mem ▸ holds_empty.content)
  · next items known =>
    cases added
    cases holds.get? known with
    | list each =>
      refine holds.insert k (.list fun x mem => ?_)
      rcases List.mem_append.mp mem with old | new
      · exact each x old
      · exact List.mem_singleton.mp new ▸ holds_empty.content
  · cases added

end Table

namespace Document

variable {r s : Document}

theorem holds_openTable {p : Path} (holds : r.root.Holds) (opened : r.openTable p = some s) : s.root.Holds := by
  unfold openTable at opened
  split at opened
  · cases opened
  · simp only [Option.bind_eq_bind, Option.bind_eq_some_iff, Option.pure_def, Option.some.injEq] at opened
    obtain ⟨root, changed, rfl⟩ := opened
    exact Table.allowed_changeAt Table.allowed_some p _ _ holds changed

theorem holds_openItem {p : Path} (holds : r.root.Holds) (opened : r.openItem p = some s) : s.root.Holds := by
  unfold openItem at opened
  split at opened
  · cases opened
  · simp only [Option.bind_eq_bind, Option.bind_eq_some_iff, Option.pure_def, Option.some.injEq] at opened
    obtain ⟨last, -, root, changed, rfl⟩ := opened
    exact Table.allowed_changeAt (Table.allowed_addItem last) _ _ _ holds changed

theorem holds_assign {p : Path} (holds : r.root.Holds) (content : Content d) (assigned : r.assign p d = some s) :
    s.root.Holds := by
  unfold assign at assigned
  dsimp only at assigned
  split at assigned
  · cases assigned
  split at assigned
  · cases assigned
  simp only [Option.bind_eq_bind, Option.bind_eq_some_iff, Option.pure_def, Option.some.injEq] at assigned
  obtain ⟨last, -, root, changed, rfl⟩ := assigned
  exact Table.allowed_changeAt (Table.allowed_add last content) _ _ _ holds changed

end Document

/-! ## Scans -/

def Scan.Yields (x : Scan α) (P : α → Prop) : Prop := ∀ s a t, x.run s = some (a, t) → P a

namespace Scan

variable {Q : β → Prop} {x y : Scan α} {f : α → Scan β}

theorem yields_pure {a : α} (holds : P a) : (pure a : Scan α).Yields P := by
  rintro s b t ⟨⟩
  exact holds

theorem yields_failure : (failure : Scan α).Yields P := by
  rintro s a t ⟨⟩

theorem yields_bind (first : x.Yields P) (next : ∀ a, P a → (f a).Yields Q) : (x >>= f).Yields Q := by
  intro s b u read
  rw [StateT.run_bind, Option.bind_eq_bind, Option.bind_eq_some_iff] at read
  obtain ⟨⟨a, t⟩, here, there⟩ := read
  exact next a (first s a t here) t b u there

theorem yields_then (next : ∀ a, (f a).Yields Q) : (x >>= f).Yields Q :=
  yields_bind (P := fun _ => True) (fun _ _ _ _ => trivial) fun a _ => next a

theorem yields_lift {o : Option α} (holds : ∀ a, o = some a → P a) : (liftM o : Scan α).Yields P := by
  intro s a t read
  cases o with
  | none => cases read
  | some b =>
    cases read
    exact holds _ rfl

theorem yields_optional (yields : x.Yields P) : (optional x).Yields fun o => ∀ a ∈ o, P a := by
  intro s o t read
  have tried : (optional x).run s = (((x.run s).map fun r => (some r.1, r.2)) <|> some (none, s)) := by
    show ((some <$> x).run s <|> some (none, s)) = _
    rw [StateT.run_map]
    rfl
  rw [tried] at read
  cases here : x.run s with
  | none =>
    rw [here] at read
    cases read
    rintro a ⟨⟩
  | some r =>
    rw [here] at read
    cases read
    rintro a ⟨⟩
    exact yields s r.1 r.2 here

end Scan

open Scan

/-! ## Reading -/

theorem yields_basedInteger : basedInteger.Yields Content := by
  refine yields_then fun _ => yields_then fun c => ?_
  extract_lets after
  have integer (r : Nat × (Char → Bool)) : (after r).Yields Content :=
    yields_then fun _ => yields_pure (.int _)
  split <;> exact yields_then integer

theorem yields_decimalNumber : decimalNumber.Yields Content := by
  refine yields_then fun negative => yields_then fun whole => yields_then fun fraction => yields_then fun exponent => ?_
  dsimp only
  split
  · exact yields_pure (.int _)
  · exact yields_pure (.real _)

theorem yields_specialNumber : specialNumber.Yields Content := by
  refine yields_then fun negative => yields_then fun infinite => ?_
  split
  · exact yields_pure (.real _)
  · exact yields_then fun _ => yields_pure (.real _)

theorem yields_number : number.Yields Content := by
  refine yields_bind (yields_optional yields_basedInteger) fun o read => ?_
  cases o with
  | some d => exact yields_pure (read d rfl)
  | none =>
    refine yields_bind (yields_optional yields_decimalNumber) fun o read => ?_
    cases o with
    | some d => exact yields_pure (read d rfl)
    | none => exact yields_specialNumber

theorem holds_assignInline {marks : Marks} {p : Path} {r : Table × Marks} (holds : t.Holds) (content : Content d)
    (assigned : assignInline t marks p d = some r) : r.1.Holds := by
  unfold assignInline at assigned
  by_cases closed : marks.isClosed p
  · simp [closed] at assigned
  simp only [closed, Bool.false_eq_true, if_false, Option.bind_eq_bind, Option.bind_eq_some_iff, Option.pure_def,
    Option.some.injEq] at assigned
  obtain ⟨last, -, u, changed, rfl⟩ := assigned
  exact Table.allowed_changeAt (Table.allowed_add last content) _ _ _ holds changed

theorem yields_value (fuel : Nat) : (value fuel).Yields Content ∧
    (items fuel).Yields (fun xs => ∀ x ∈ xs, Content x) ∧
    ∀ t marks, t.Holds → (pairs fuel t marks).Yields Table.Holds := by
  induction fuel with
  | zero => exact ⟨yields_failure, yields_failure, fun _ _ _ => yields_failure⟩
  | succ fuel ih =>
    obtain ⟨one, several, paired⟩ := ih
    refine ⟨?_, ?_, fun t marks holds => ?_⟩
    · unfold value
      refine yields_then fun c => ?_
      split
      · exact yields_then fun s => yields_pure (.str s)
      · exact yields_then fun s => yields_pure (.str s)
      · exact yields_then fun _ => yields_pure (.bool true)
      · exact yields_then fun _ => yields_pure (.bool false)
      · exact yields_then fun _ => yields_then fun _ => yields_bind several fun xs each => yields_pure (.list each)
      · refine yields_then fun _ => yields_then fun _ => yields_then fun closed => ?_
        split
        · exact yields_pure Table.holds_empty.content
        · exact yields_bind (paired {} [] Table.holds_empty) fun t holds => yields_pure holds.content
      · refine yields_then fun m => ?_
        split
        · split
          · exact yields_pure (.moment _ _ _)
          · exact yields_failure
        · exact yields_number
    · unfold items
      refine yields_then fun closed => ?_
      split
      · exact yields_pure nofun
      refine yields_bind one fun d content => yields_then fun _ => yields_then fun last => ?_
      split
      · exact yields_pure fun x mem => List.mem_singleton.mp mem ▸ content
      · exact yields_then fun _ => yields_then fun _ => yields_bind several fun xs each =>
          yields_pure (List.forall_mem_cons.mpr ⟨content, each⟩)
    · unfold pairs
      refine yields_then fun p => yields_then fun _ => yields_then fun _ => yields_bind one fun d content => ?_
      refine yields_bind (yields_lift fun r assigned => holds_assignInline holds content assigned) fun r holds => ?_
      refine yields_then fun _ => yields_then fun last => ?_
      split
      · exact yields_pure holds
      · exact yields_then fun _ => yields_then fun _ => paired r.1 r.2 holds

variable {r : Document}

theorem yields_pair (holds : r.root.Holds) : (pair r).Yields fun s => s.root.Holds := by
  refine yields_then fun p => yields_then fun _ => yields_then fun _ => yields_then fun fuel => ?_
  refine yields_bind (yields_value fuel).1 fun d content => ?_
  exact yields_lift fun s assigned => Document.holds_assign holds content assigned

theorem yields_header (holds : r.root.Holds) : (header r).Yields fun s => s.root.Holds := by
  have holds : r.endSection.root.Holds := holds
  refine yields_then fun several => ?_
  split
  · refine yields_then fun _ => yields_then fun p => ?_
    refine yields_bind (yields_lift fun s opened => Document.holds_openItem holds opened) fun s holds => ?_
    exact yields_then fun _ => yields_pure holds
  · refine yields_then fun _ => yields_then fun _ => yields_then fun p => ?_
    refine yields_bind (yields_lift fun s opened => Document.holds_openTable holds opened) fun s holds => ?_
    exact yields_then fun _ => yields_pure holds

theorem yields_lines (fuel : Nat) (holds : r.root.Holds) : (lines fuel r).Yields fun s => s.root.Holds := by
  induction fuel generalizing r with
  | zero => exact yields_failure
  | succ fuel ih =>
    unfold lines
    refine yields_then fun _ => yields_then fun c => ?_
    extract_lets after
    have goesOn (s : Document) (holds : s.root.Holds) : (after s).Yields fun s => s.root.Holds := by
      refine yields_then fun _ => yields_then fun _ => yields_then fun rest => ?_
      split
      · exact yields_pure holds
      · exact yields_then fun _ => ih holds
      · exact yields_failure
    split
    · exact yields_bind (yields_pure holds) goesOn
    · exact yields_bind (yields_pure holds) goesOn
    · exact yields_bind (yields_pure holds) goesOn
    · exact yields_bind (yields_header holds) goesOn
    · exact yields_bind (yields_pair holds) goesOn

/-- Whatever a document says, its data is what a document can hold. -/
theorem content_read? {document : String} (read : read? document = some d) :
    ∃ t : Table, t.Holds ∧ d = t.toData := by
  unfold read? at read
  simp only [Option.bind_eq_bind, Option.bind_eq_some_iff, Option.pure_def, Option.some.injEq] at read
  obtain ⟨⟨r, rest⟩, done, rfl⟩ := read
  exact ⟨r.root, yields_lines _ Table.holds_empty _ r rest done, rfl⟩

end AsyncImport.Toml
