import AsyncImport.Proofs.Restoring

/-!
# Checked tables

A table of settings is refused for what is wrong with it, and for nothing else, as long as what is refused
can be told in a message. A module cannot while its format is not a tag.
-/

namespace AsyncImport

open Edit

variable {h g : Heap} {w v : World} {x y : Value}

/-! ## What can be told -/

def Value.fields : Value → List Value
  | .source v | .factory v | .code v | .linked v | .registered v => [v]
  | .handler v x | .failed v x => [v, x]
  | _ => []

/-- There is no text of a value: in it, somewhere, is a module whose format is not a tag. -/
inductive Heap.Mute (h : Heap) : Value → Prop
  | object {k : Kind} {r : Ref k} (wordless : h.textParts? k r = none) : Mute h (.obj k r)
  | part {k : Kind} {r : Ref k} {parts : List Value} {y : Value} (found : h.textParts? k r = some parts)
      (mem : y ∈ parts) (mute : Mute h y) : Mute h (.obj k r)
  | field {x y : Value} (mem : y ∈ x.fields) (mute : Mute h y) : Mute h x

namespace Heap

theorem mute_of_hasTextWith {object : (k : Kind) → Ref k → Bool}
    (each : ∀ k (r : Ref k), object k r = false → h.Mute (.obj k r))
    (none : hasTextWith object x = false) : h.Mute x := by
  induction x with
  | obj k r => exact each k r none
  | source v ih | factory v ih | code v ih | linked v ih | registered v ih =>
    exact .field List.mem_cons_self (ih none)
  | handler v y ihv ihy | failed v y ihv ihy =>
    simp only [hasTextWith, Bool.and_eq_false_iff] at none
    rcases none with first | second
    · exact .field List.mem_cons_self (ihv first)
    · exact .field (List.mem_cons_of_mem _ List.mem_cons_self) (ihy second)
  | _ => cases none

theorem mute_of_hasTextFrom {n : Nat} {path : List Identity} (none : h.hasTextFrom n path x = false) :
    h.Mute x := by
  induction n generalizing path x with
  | zero => cases none
  | succ n ih =>
    refine mute_of_hasTextWith (fun k r missing => ?_) none
    simp only [Bool.or_eq_false_iff] at missing
    cases found : h.textParts? k r with
    | none => exact .object found
    | some parts =>
      rw [found, Option.any_some, List.all_eq_false] at missing
      obtain ⟨-, y, mem, silent⟩ := missing
      exact .part found mem (ih (by simpa using silent))

theorem hasText_of_not_mute (told : ¬ h.Mute x) : h.hasText x = true := by
  by_contra none
  exact told (mute_of_hasTextFrom (Bool.of_not_eq_true none))

theorem not_mute_str (t : String) : ¬ h.Mute (.str t) := by
  intro mute
  cases mute with
  | field mem => cases mem

theorem not_mute_dict {r : Ref .dict} (told : ∀ e ∈ (h.get r).items, ¬ h.Mute e.1 ∧ ¬ h.Mute e.2) :
    ¬ h.Mute (.obj .dict r) := by
  intro mute
  cases mute with
  | object none => cases none
  | part found mem mute =>
    cases found
    rcases List.mem_append.mp mem with label | value
    · obtain ⟨e, held, rfl⟩ := List.mem_map.mp label
      exact (told e held).1 mute
    · obtain ⟨e, held, rfl⟩ := List.mem_map.mp value
      exact (told e held).2 mute
  | field mem => cases mem

theorem textParts?_alloc_list {l : Kind} (ne : l ≠ .list) (r : Ref l) (vs : List Value) :
    (h.alloc .list vs).textParts? l r = h.textParts? l r := by
  have get {l : Kind} (ne : l ≠ .list) (s : Ref l) : (h.alloc .list vs).get s = h.get s :=
    get_alloc_kind _ _ ne
  cases l
  case list => contradiction
  case tuple | dict | draft | module | plugin | settings | field =>
    simp only [textParts?]
    rw [get (by decide)]
  all_goals rfl

theorem mute_of_alloc {ts : List String} (mute : (w.alloc .list (ts.map .str)).heap.Mute x) :
    w.heap.Mute x := by
  induction mute with
  | @object k r wordless =>
    by_cases list : k = .list
    · subst list
      cases wordless
    · exact .object ((textParts?_alloc_list list r _).symm.trans wordless)
  | @part k r parts y found mem mute ih =>
    by_cases list : k = .list
    · subst list
      cases found
      rw [World.get_alloc] at mem
      split at mem
      · obtain ⟨t, -, rfl⟩ := List.mem_map.mp mem
        exact absurd mute (not_mute_str t)
      · exact .part rfl mem ih
    · exact .part ((textParts?_alloc_list list r _).symm.trans found) mem ih
  | field mem _ ih => exact .field mem ih

theorem not_mute_items {xs : List Value} (told : ¬ h.Mute x) (found : h.items? x = some xs) :
    ∀ y ∈ xs, ¬ h.Mute y := by
  intro y mem mute
  unfold items? at found
  split at found <;> cases found
  case h_1 =>
    obtain ⟨c, -, rfl⟩ := List.mem_map.mp mem
    exact not_mute_str _ mute
  case h_2 =>
    obtain ⟨b, -, rfl⟩ := List.mem_map.mp mem
    cases mute with
    | field mem => cases mem
  case h_3 r => exact told (.part rfl mem mute)
  case h_4 r => exact told (.part rfl mem mute)
  case h_5 r => exact told (.part rfl (List.mem_append_left _ mem) mute)

end Heap

theorem shown_told (told : ¬ w.heap.Mute x) : (shown x).run w = (.ok (w.heap.shown x), w) := by
  unfold shown
  simp [run_bind, Quiet.run_map, Heap.hasText_of_not_mute told]

theorem spoken_told (told : ¬ w.heap.Mute x) : (spoken x).run w = (.ok (w.heap.spoken x), w) := by
  unfold spoken
  simp [run_bind, Quiet.run_map, Heap.hasText_of_not_mute told]

theorem parse_refuses (unknown : Hook.ofValue? x = none) (told : ¬ w.heap.Mute x) :
    ∃ c, (Hook.parse x).run w = (.error (.registration c), w) := by
  cases x with
  | hook k => cases unknown
  | str t =>
    refine ⟨.unknownHook t, ?_⟩
    unfold Hook.parse
    have unknown : Hook.ofText? t = none := unknown
    simp only [unknown]
    rfl
  | _ =>
    unfold Hook.parse
    simp only [Quiet.run_bind, run_bind, spoken_told told]
    exact ⟨_, rfl⟩

theorem mapM_refuses {α γ : Type} {f : γ → Edit α} {find : γ → Option α} {cs : List γ}
    (reads : ∀ c, (f c).Reads fun _ => find c)
    (refuses : ∀ c ∈ cs, find c = none → ∃ cause, f c w = (.error (.registration cause), w))
    (none : cs.mapM find = none) : ∃ cause, cs.mapM f w = (.error (.registration cause), w) := by
  induction cs with
  | nil => cases none
  | cons c cs ih =>
    rw [List.mapM_cons, run_bind]
    cases first : find c with
    | none =>
      obtain ⟨cause, run⟩ := refuses c List.mem_cons_self first
      exact ⟨cause, by simp only [run]⟩
    | some a =>
      have rest : cs.mapM find = Option.none := by
        cases known : cs.mapM find with
        | none => rfl
        | some as => simp [List.mapM_cons, first, known] at none
      obtain ⟨cause, run⟩ := ih (fun d mem => refuses d (List.mem_cons_of_mem _ mem)) rest
      exact ⟨cause, by simp only [(reads c).found first, run_bind, run]⟩

theorem patternList_refuses (unread : w.heap.patterns? x = none) (told : ¬ w.heap.Mute x) :
    ∃ c, patternList x w = (.error (.registration c), w) := by
  unfold patternList
  split
  case h_1 s => cases unread
  case h_2 other =>
    have read : (w.heap.items? x).bind (List.mapM Value.str?) = none := by
      cases x with
      | str s => exact absurd rfl (other s)
      | _ => exact unread
    rw [run_bind, run_lift, Quiet.run_heap]
    dsimp only
    cases found : w.heap.items? x with
    | none =>
      dsimp only
      rw [run_bind, run_lift, shown_told told]
      exact ⟨_, rfl⟩
    | some vs =>
      rw [found] at read
      refine mapM_refuses reads_pattern (fun y mem none => ?_) read
      have told := Heap.not_mute_items told found y mem
      cases y with
      | str s => cases none
      | _ =>
        simp only [run_bind, run_lift, shown_told told]
        exact ⟨_, rfl⟩

/-! ## Judgements -/

namespace Edit

variable {α : Type} {P Q : Prop}

theorem run_tryCatch (e : Edit α) (f : Fault → Edit α) (w : World) :
    tryCatch e f w = match e w with
      | (.ok a, v) => (.ok a, v)
      | (.error g, v) => f g v := by
  show ExceptT.tryCatch e f w = _
  simp only [ExceptT.tryCatch, ExceptT.mk, bind, StateT.bind]
  rcases e w with ⟨_ | _, _⟩ <;> rfl

def Judges (e : Edit Unit) (w : World) (P : Prop) : Prop :=
  P ∧ e w = (.ok (), w) ∨ ¬ P ∧ ∃ c, e w = (.error (.validation c), w)

theorem Judges.congr {e : Edit Unit} (judges : e.Judges w P) (same : P ↔ Q) : e.Judges w Q := by
  unfold Judges
  rwa [← same]

theorem judges_bind {e f : Edit Unit} (first : e.Judges w P) (next : f.Judges w Q) :
    (e >>= fun _ => f).Judges w (P ∧ Q) := by
  rcases first with ⟨p, run⟩ | ⟨not, c, run⟩
  · have rest : (e >>= fun _ => f) w = f w := by rw [run_bind, run]
    rcases next with ⟨q, also⟩ | ⟨not, c, also⟩
    · exact .inl ⟨⟨p, q⟩, rest.trans also⟩
    · exact .inr ⟨fun both => not both.2, c, rest.trans also⟩
  · exact .inr ⟨fun both => not both.1, c, by rw [run_bind, run]⟩

theorem judges_forM {γ : Type} {f : γ → Edit Unit} {P : γ → Prop} {cs : List γ}
    (each : ∀ c ∈ cs, (f c).Judges w (P c)) : (cs.forM f).Judges w (∀ c ∈ cs, P c) := by
  induction cs with
  | nil => exact .inl ⟨by simp, rfl⟩
  | cons c cs ih =>
    have first := each c List.mem_cons_self
    have rest := ih fun d mem => each d (List.mem_cons_of_mem _ mem)
    exact (judges_bind first rest).congr (by simp)

end Edit

/-! ## Fields -/

namespace Field

variable {f : Field} {d : Data}

structure Admits (f : Field) (d : Data) : Prop where
  type : d.isA f.type
  number : f.type ≠ .bool → d.isA .bool = false
  choice : ∀ cs, f.choices? = some cs → d.isAmong cs
  length : f.isBounded → ∀ i : Int, f.min = .int i → i ≤ (d.length?.getD 0 : Nat)

theorem checkLength_judged (min : f.min = .none ∨ ∃ i, f.min = .int i) (max : f.max = .none) :
    (∀ i : Int, f.min = .int i → i ≤ (d.length?.getD 0 : Nat)) ∧ f.checkLength d = .ok () ∨
      ¬ (∀ i : Int, f.min = .int i → i ≤ (d.length?.getD 0 : Nat)) ∧
        ∃ c, f.checkLength d = .error (.validation c) := by
  unfold checkLength
  dsimp only
  rw [max]
  rcases min with min | ⟨i, min⟩
  · rw [min]
    exact .inl ⟨by simp, rfl⟩
  · by_cases short : ((d.length?.getD 0 : Nat) : Int) < i
    · have below : isBelow (d.length?.getD 0) f.min = some true := by rw [min, isBelow, decide_eq_true short]
      rw [below, min]
      exact .inr ⟨by simpa using short, _, rfl⟩
    · have fits : isBelow (d.length?.getD 0) f.min = some false := by rw [min, isBelow, decide_eq_false short]
      rw [fits, min]
      exact .inl ⟨by simpa using short, rfl⟩

theorem validate_judged (min : f.min = .none ∨ ∃ i, f.min = .int i) (max : f.max = .none) :
    f.Admits d ∧ f.validate d = .ok () ∨
      ¬ f.Admits d ∧ ∃ c, f.validate d = .error (.validation c) := by
  by_cases typed : d.isA f.type = true ∧ (f.type ≠ .bool → d.isA .bool = false)
  case neg =>
    have refused : (!d.isA f.type || (f.type ≠ .bool && d.isA .bool)) = true := by
      by_contra fits
      exact typed (by simpa using fits)
    refine .inr ⟨fun admits => typed ⟨admits.type, admits.number⟩, ?_⟩
    unfold validate
    rw [if_pos refused]
    exact ⟨_, rfl⟩
  case pos =>
    have fits : (!d.isA f.type || (f.type ≠ .bool && d.isA .bool)) = false := by simpa using typed
    have choice (ok : ∀ cs, f.choices? = some cs → d.isAmong cs = true) : f.validate d =
        if f.isBounded then f.checkLength d else .ok () := by
      unfold validate
      rw [fits]
      cases known : f.choices? with
      | none => rfl
      | some cs =>
        dsimp only
        rw [ok cs known]
        rfl
    by_cases among : ∀ cs, f.choices? = some cs → d.isAmong cs = true
    case neg =>
      push Not at among
      obtain ⟨cs, known, other⟩ := among
      refine .inr ⟨fun admits => other (admits.choice cs known), ?_⟩
      unfold validate
      rw [fits, known]
      dsimp only
      rw [Bool.eq_false_iff.mpr other]
      exact ⟨_, rfl⟩
    case pos =>
      rw [choice among]
      by_cases bounded : f.isBounded
      · rw [if_pos bounded]
        rcases checkLength_judged min max with ⟨long, run⟩ | ⟨short, c, run⟩
        · exact .inl ⟨⟨typed.1, typed.2, among, fun _ => long⟩, run⟩
        · exact .inr ⟨fun admits => short (admits.length bounded), c, run⟩
      · exact .inl ⟨⟨typed.1, typed.2, among, fun is => absurd is bounded⟩, if_neg bounded⟩

end Field

theorem Heap.isA_str : (h.data x).isA .str = x.str?.isSome := by
  cases x with
  | obj k r =>
    cases k <;> rfl
  | _ => rfl

theorem Heap.isA_dict : (h.data x).isA .dict = (h.dict? x).isSome := by
  cases x with
  | obj k r => cases k <;> rfl
  | _ => rfl

namespace Field

theorem admits_text {f : Field} (type : f.type = .str) : f.Admits (h.data x) ↔
    ∃ t, x = .str t ∧ (∀ cs, f.choices? = some cs → (Data.str t).isAmong cs) ∧
      ∀ i : Int, f.min = .int i → i ≤ t.length := by
  constructor
  · intro admits
    have text := admits.type
    rw [type, Heap.isA_str] at text
    cases x <;> cases text
    next t => exact ⟨t, rfl, admits.choice, admits.length (by simp [isBounded, type])⟩
  · rintro ⟨t, rfl, choice, length⟩
    exact ⟨by rw [type]; rfl, fun _ => rfl, choice, fun _ => length⟩

theorem admits_choice {ts : List String} {f : Field} (type : f.type = .str) (min : f.min = .none)
    (choices : f.choices = .list (ts.map .str)) : f.Admits (h.data x) ↔ ∃ t ∈ ts, x = .str t := by
  have among (t : String) : (Data.str t).isAmong (ts.map .str) = true ↔ t ∈ ts := by
    simp [Data.isAmong, Data.same]
  rw [admits_text type]
  simp only [choices?, choices, min, Option.some.injEq, forall_eq', among]
  constructor
  · rintro ⟨t, rfl, mem, -⟩
    exact ⟨t, mem, rfl⟩
  · rintro ⟨t, mem, rfl⟩
    exact ⟨t, rfl, mem, by simp⟩

theorem admits_dict {f : Field} (type : f.type = .dict) (choices : f.choices = .none) :
    f.Admits (h.data x) ↔ ∃ r, x = .obj .dict r := by
  constructor
  · intro admits
    have mapping := admits.type
    rw [type, Heap.isA_dict] at mapping
    cases x with
    | obj k r =>
      cases k <;> cases mapping
      exact ⟨r, rfl⟩
    | _ => cases mapping
  · rintro ⟨r, rfl⟩
    refine ⟨by rw [type]; rfl, fun _ => rfl, by simp [choices?, choices], ?_⟩
    simp [isBounded, type]

end Field

/-! ## The table -/

namespace Settings

def Allows (h : Heap) (label x : Value) : Prop :=
  match label with
  | .str "plugin_delimiter" => ∃ t, x = .str t ∧ t ≠ ""
  | .str "log_level" => ∃ t ∈ ["DEBUG", "INFO", "WARNING", "ERROR"], x = .str t
  | .str "log_format" => ∃ t ∈ ["console", "json"], x = .str t
  | .str "ignore" => ∃ r : Ref .dict, x = .obj .dict r ∧
      ∀ e ∈ (h.get r).items, (Hook.ofValue? e.1).isSome ∧ (h.patterns? e.2).isSome
  | _ => False

def Declares (h : Heap) (label x : Value) : Prop :=
  ∃ s ∈ schema, label = .str s.name ∧ s.field.Admits (h.data x)

theorem declares_iff {label : Value} : Declares h label x ↔
    label = .str "plugin_delimiter" ∧ (∃ t, x = .str t ∧ t ≠ "") ∨
    label = .str "log_level" ∧ (∃ t ∈ ["DEBUG", "INFO", "WARNING", "ERROR"], x = .str t) ∨
    label = .str "log_format" ∧ (∃ t ∈ ["console", "json"], x = .str t) ∨
    label = .str "ignore" ∧ ∃ r : Ref .dict, x = .obj .dict r := by
  have delimiter : ({ type := .str, default := .str "!", min := .int 1 } : Field).Admits (h.data x) ↔
      ∃ t, x = .str t ∧ t ≠ "" := by
    rw [Field.admits_text rfl]
    refine exists_congr fun t => and_congr_right fun _ => ?_
    have length : (1 : Int) ≤ t.length ↔ t ≠ "" := by
      rw [Ne, ← String.length_eq_zero_iff]
      omega
    simp [Field.choices?, length]
  unfold Declares schema
  rw [List.exists_mem_cons_iff, List.exists_mem_cons_iff, List.exists_mem_cons_iff, List.exists_mem_cons_iff]
  simp only [List.not_mem_nil, false_and, exists_false, or_false]
  rw [delimiter, Field.admits_choice rfl rfl rfl, Field.admits_choice rfl rfl rfl, Field.admits_dict rfl rfl]

/-- What is allowed is what the schema has nothing against, with hooks and patterns to ignore. -/
theorem allows_iff {label : Value} : Allows h label x ↔ Declares h label x ∧
    (label = .str "ignore" → ∀ r : Ref .dict, x = .obj .dict r →
      ∀ e ∈ (h.get r).items, (Hook.ofValue? e.1).isSome ∧ (h.patterns? e.2).isSome) := by
  rw [declares_iff]
  constructor
  · intro allows
    unfold Allows at allows
    split at allows
    · exact ⟨.inl ⟨rfl, allows⟩, fun other => by simp at other⟩
    · exact ⟨.inr (.inl ⟨rfl, allows⟩), fun other => by simp at other⟩
    · exact ⟨.inr (.inr (.inl ⟨rfl, allows⟩)), fun other => by simp at other⟩
    · obtain ⟨r, rfl, each⟩ := allows
      refine ⟨.inr (.inr (.inr ⟨rfl, r, rfl⟩)), fun _ s same => ?_⟩
      cases same
      exact each
    · contradiction
  · rintro ⟨⟨rfl, fits⟩ | ⟨rfl, fits⟩ | ⟨rfl, fits⟩ | ⟨rfl, r, rfl⟩, each⟩
    · exact fits
    · exact fits
    · exact fits
    · exact ⟨r, rfl, each rfl r rfl⟩

theorem declared?_eq_some {κ : Key} {s : Entry} : declared? κ = some s ↔ s ∈ schema ∧ κ = .text s.name := by
  constructor
  · intro found
    have spelt := List.find?_some found
    exact ⟨List.mem_of_find?_eq_some found, (by simpa using spelt : Key.text s.name = κ).symm⟩
  · rintro ⟨mem, rfl⟩
    simp only [schema, List.mem_cons, List.not_mem_nil, or_false] at mem
    rcases mem with rfl | rfl | rfl | rfl <;> rfl

theorem inField_judges {s : Entry} {d : Data} (mem : s ∈ schema) :
    (Schema.inField s.name (liftExcept (s.field.validate d))).Judges w (s.field.Admits d) := by
  have bounds : ∀ s ∈ schema, (s.field.min = .none ∨ ∃ i, s.field.min = .int i) ∧ s.field.max = .none := by
    simp [schema]
  obtain ⟨min, max⟩ := bounds s mem
  rcases Field.validate_judged min max with ⟨admits, ok⟩ | ⟨refuses, c, error⟩
  · refine .inl ⟨admits, ?_⟩
    rw [ok]
    rfl
  · refine .inr ⟨refuses, .inField s.name c, ?_⟩
    rw [error]
    rfl

/-- The check of a table refuses what the schema has something against. -/
theorem check_judges {c : Dict} (filed : c.Filed w.heap) (told : ∀ e ∈ c.items, ¬ w.heap.Mute e.1) :
    (check c).Judges w (∀ e ∈ c.items, Declares w.heap e.1 e.2) := by
  refine (judges_bind
    (judges_forM (P := fun e => (declared? e.1).isSome) fun e mem => ?known)
    (judges_forM (P := fun e => ∀ s, declared? e.1 = some s → s.field.Admits (w.heap.data e.2.2))
      fun e mem => ?fits)).congr
    ⟨fun ⟨all, each⟩ e mem => ?_, fun declares => ⟨?_, ?_⟩⟩
  case known =>
    have told := told e.2 (List.mem_map_of_mem mem)
    cases found : declared? e.1 with
    | some s => exact .inl ⟨rfl, rfl⟩
    | none =>
      refine .inr ⟨by simp, .unknownField (w.heap.spoken e.2.1), ?_⟩
      rw [if_pos (show (none : Option Entry).isNone from rfl), run_bind, run_lift, spoken_told told]
      rfl
  case fits =>
    cases found : declared? e.1 with
    | none => exact .inl ⟨by simp, rfl⟩
    | some s =>
      have judges := inField_judges (w := w) (d := w.heap.data e.2.2) (declared?_eq_some.mp found).1
      simp only [Option.some.injEq, forall_eq']
      unfold Judges at judges ⊢
      simpa only [run_bind, run_lift, Quiet.run_heap] using judges
  · obtain ⟨f, held, rfl⟩ := List.mem_map.mp mem
    obtain ⟨s, found⟩ := Option.isSome_iff_exists.mp (all f held)
    obtain ⟨there, spelt⟩ := declared?_eq_some.mp found
    exact ⟨s, there, Heap.key?_eq_text.mp ((filed.filed f held).trans (congrArg some spelt)), each f held s found⟩
  · intro f held
    obtain ⟨s, there, spelt, -⟩ := declares f.2 (List.mem_map_of_mem held)
    have key : f.1 = .text s.name := Option.some.inj ((filed.filed f held).symm.trans (Heap.key?_eq_text.mpr spelt))
    exact Option.isSome_of_eq_some (declared?_eq_some.mpr ⟨there, key⟩)
  · intro f held s found
    obtain ⟨t, there, spelt, admits⟩ := declares f.2 (List.mem_map_of_mem held)
    have key : f.1 = .text t.name := Option.some.inj ((filed.filed f held).symm.trans (Heap.key?_eq_text.mpr spelt))
    rw [declared?_eq_some.mpr ⟨there, key⟩] at found
    cases found
    exact admits

end Settings

end AsyncImport
