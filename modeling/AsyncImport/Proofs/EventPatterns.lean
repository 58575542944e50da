import AsyncImport.Proofs.Emission
import AsyncImport.Proofs.Wildcards

/-!
# The language of event patterns

A pattern is matched as a regular expression: it is escaped as a whole and rewritten where its stars were,
which comes to reading it character by character (`tokens?_regex`). So a pattern admits what it describes
(`admits_iff`), and a subscription to it is selected for these event ids and no others, whatever else happens
to the bus (`pattern_selects`).
-/

namespace AsyncImport

namespace Text

variable {old new s : List Char} {ps : List (List Char)} {c : Char}

theorem parts_skip (d : List Char) (n : Nat) (s : List Char) : parts d n s = parts d 0 (s.drop n) := by
  induction s generalizing n with
  | nil => cases n <;> rfl
  | cons c s ih =>
    cases n with
    | zero => rfl
    | succ n => exact ih n

theorem parts_ne_nil (d s : List Char) : parts d 0 s ≠ [] := by
  cases s with
  | nil => exact List.cons_ne_nil _ _
  | cons c s =>
    rw [parts]
    split
    · exact List.cons_ne_nil _ _
    · cases parts d 0 s <;> exact List.cons_ne_nil _ _

theorem intercalate_consFirst (some : ps ≠ []) :
    new.intercalate (consFirst c ps) = c :: new.intercalate ps := by
  match ps with
  | [p] => simp [consFirst]
  | p :: q :: ps => simp [consFirst]

/-- What is to be replaced is replaced where the text begins with it, -/
theorem replace_append (proper : old ≠ []) : replace old new (old ++ s) = new ++ replace old new s := by
  obtain ⟨c, d, rfl⟩ := List.exists_cons_of_ne_nil proper
  have begins : (c :: d).isPrefixOf (c :: (d ++ s)) = true :=
    List.isPrefixOf_iff_prefix.mpr (List.prefix_append (c :: d) s)
  have rest : (d ++ s).drop ((c :: d).length - 1) = s := List.drop_left
  obtain ⟨p, ps, is⟩ := List.exists_cons_of_ne_nil (parts_ne_nil (c :: d) s)
  unfold replace
  rw [List.cons_append, parts, if_pos begins, parts_skip, rest, is]
  simp

/-- and elsewhere a character is kept. -/
theorem replace_cons (other : ¬ old <+: c :: s) : replace old new (c :: s) = c :: replace old new s := by
  unfold replace
  rw [parts, if_neg (mt List.isPrefixOf_iff_prefix.mp other), intercalate_consFirst (parts_ne_nil old s)]

end Text

namespace Event.Pattern

open Wildcard

variable {p s : List Char} {c : Char}

/-! ## Patterns as expressions -/

def written (c : Char) : List Char :=
  if c = '*' then ['[', '^', '.', ']', '*'] else if c ∈ Regex.escaped then ['\\', c] else [c]

theorem escape_ne_star (p s : List Char) : Regex.escape p ≠ '*' :: s := by
  cases p with
  | nil => exact (List.cons_ne_nil _ _).symm
  | cons c p =>
    unfold Regex.escape
    rw [List.flatMap_cons]
    split
    · simp
    · next plain =>
      intro same
      obtain rfl : c = '*' := (List.cons.inj same).1
      exact plain (by decide)

/-- The rewriting meets each star with the backslash that escapes it, and no other backslash before a star. -/
theorem replace_escape (p : List Char) :
    Text.replace ['\\', '*'] ['[', '^', '.', ']', '*'] (Regex.escape p) = p.flatMap written := by
  induction p with
  | nil => rfl
  | cons c p ih =>
    have unfolded : Regex.escape (c :: p) = (if c ∈ Regex.escaped then ['\\', c] else [c]) ++ Regex.escape p :=
      List.flatMap_cons
    rw [unfolded, List.flatMap_cons, written, ← ih]
    by_cases star : c = '*'
    · subst star
      rw [if_pos (by decide), if_pos rfl]
      exact Text.replace_append (by simp)
    rw [if_neg star]
    have alone : ¬ ['\\', '*'] <+: c :: Regex.escape p := by
      intro begins
      obtain ⟨-, later⟩ := List.cons_prefix_cons.mp begins
      obtain ⟨rest, is⟩ := later
      exact escape_ne_star p rest is.symm
    split
    · have before : ¬ ['\\', '*'] <+: '\\' :: c :: Regex.escape p := by
        simp [List.cons_prefix_cons, Ne.symm star]
      rw [List.cons_append, List.singleton_append, Text.replace_cons before, Text.replace_cons alone]
      rfl
    · exact Text.replace_cons alone

def token (c : Char) : Token := if c = '*' then .run '.' else .char c

theorem items?_written (c : Char) (e : List Char) :
    Regex.items? (written c ++ e) = (Regex.items? e).map (token c :: ·) := by
  unfold written token
  by_cases star : c = '*'
  · rw [if_pos star, if_pos star]
    rfl
  rw [if_neg star, if_neg star]
  split
  · next special =>
    have other : c.isAlphanum = false := by
      have all : (Regex.escaped.all fun c => !c.isAlphanum) = true := by decide +kernel
      simpa using List.all_eq_true.mp all c special
    simp [Regex.items?, other]
  · next plain =>
    have unmarked : c ∉ Regex.marks := fun marked => plain ((by decide : Regex.marks ⊆ Regex.escaped) marked)
    have ne {d : Char} (special : d ∈ Regex.escaped) : c ≠ d := fun is => plain (is ▸ special)
    have dollar : c ≠ '$' := ne (by decide)
    have bracket : c ≠ '[' := ne (by decide)
    have backslash : c ≠ '\\' := ne (by decide)
    simp [Regex.items?, dollar, bracket, backslash, unmarked]

theorem tokens?_regex (p : List Char) : Regex.tokens? (regex p) = some (p.map token) := by
  unfold regex
  rw [Regex.tokens?, replace_escape]
  induction p with
  | nil => rfl
  | cons c p ih => rw [List.flatMap_cons, List.append_assoc, items?_written, ih, List.map_cons, Option.map_some]

/-! ## What a pattern describes -/

inductive Describes : List Char → List Char → Prop
  | nil : Describes [] []
  | star {p piece rest : List Char} (within : '.' ∉ piece) (later : Describes p rest) :
      Describes ('*' :: p) (piece ++ rest)
  | char {p rest : List Char} {c : Char} (plain : c ≠ '*') (later : Describes p rest) :
      Describes (c :: p) (c :: rest)

/-- An event id matches a pattern that describes it, or describes it without one final newline. -/
def Matches (pattern id : String) : Prop :=
  ∃ text, Describes pattern.toList text ∧ (id.toList = text ∨ id.toList = text ++ ['\n'])

theorem describes_iff_spells : Describes p s ↔ Spells (p.map token) s := by
  constructor
  · intro describes
    induction describes with
    | nil => exact .nil
    | star within _ ih => exact .cons within ih
    | @char p rest c plain _ ih =>
      rw [List.map_cons, token, if_neg plain]
      exact spells_cons.mpr ⟨[c], rest, rfl, ih, rfl⟩
  · intro spells
    induction p generalizing s with
    | nil =>
      rw [spells_nil.mp spells]
      exact .nil
    | cons c p ih =>
      obtain ⟨piece, rest, here, there, rfl⟩ := spells_cons.mp spells
      by_cases star : c = '*'
      · subst star
        exact .star here (ih there)
      · rw [token, if_neg star] at here
        obtain rfl : piece = [c] := here
        exact .char star (ih there)

theorem admits_iff {pattern id : String} : admits pattern id = true ↔ Matches pattern id := by
  unfold admits
  rw [tokens?_regex]
  simp only [accepts_iff, Matches, describes_iff_spells]

end Event.Pattern

/-! ## Subscriptions to patterns -/

namespace Bus

open Edit

variable {kept : Value → Prop} {bus next last : Bus} {b : Ref .bus} {w v u : World}

structure GoesOn (kept : Value → Prop) (bus next : Bus) : Prop where
  counter : bus.counter ≤ next.counter
  stays : ∀ q ∈ bus.patterns, kept q.2.callback → q ∈ next.patterns
  patterns : ∀ q ∈ next.patterns, q ∈ bus.patterns ∨ bus.counter ≤ q.2.order ∧ q.2.order < next.counter
  routes : ∀ k, ∀ s ∈ (next.routes.get? k).getD [],
    s ∈ (bus.routes.get? k).getD [] ∨ bus.counter ≤ s.order ∧ s.order < next.counter

namespace GoesOn

theorem refl (kept : Value → Prop) (bus : Bus) : GoesOn kept bus bus where
  counter := Nat.le_refl _
  stays _ mem _ := mem
  patterns _ mem := .inl mem
  routes _ _ mem := .inl mem

theorem trans (first : GoesOn kept bus next) (second : GoesOn kept next last) : GoesOn kept bus last where
  counter := Nat.le_trans first.counter second.counter
  stays q mem keeps := second.stays q (first.stays q mem keeps) keeps
  patterns q mem := by
    rcases second.patterns q mem with old | ⟨since, before⟩
    · exact (first.patterns q old).imp_right fun new => ⟨new.1, Nat.lt_of_lt_of_le new.2 second.counter⟩
    · exact .inr ⟨Nat.le_trans first.counter since, before⟩
  routes k s mem := by
    rcases second.routes k s mem with old | ⟨since, before⟩
    · exact (first.routes k s old).imp_right fun new => ⟨new.1, Nat.lt_of_lt_of_le new.2 second.counter⟩
    · exact .inr ⟨Nat.le_trans first.counter since, before⟩

theorem skip (kept : Value → Prop) (bus : Bus) : GoesOn kept bus bus.skip where
  counter := Nat.le_succ _
  stays _ mem _ := mem
  patterns _ mem := .inl mem
  routes _ _ mem := .inl mem

theorem subscribe (kept : Value → Prop) (bus : Bus) (l : Key) (f p : Value) :
    GoesOn kept bus (bus.subscribe l f p) where
  counter := Nat.le_succ _
  stays _ mem _ := mem
  patterns _ mem := .inl mem
  routes k s mem := by
    simp only [Bus.subscribe, Assoc.get?_insert] at mem
    split at mem
    · next same =>
      subst same
      refine (List.mem_append.mp mem).imp_right fun new => ?_
      rw [List.mem_singleton.mp new]
      exact ⟨Nat.le_refl _, Nat.lt_succ_self _⟩
    · exact .inl mem

theorem subscribePattern (kept : Value → Prop) (bus : Bus) (q : String) (f p : Value) :
    GoesOn kept bus (bus.subscribePattern q f p) where
  counter := Nat.le_succ _
  stays _ mem _ := List.mem_append_left _ mem
  patterns r mem := (List.mem_append.mp mem).imp_right fun new => by
    rw [List.mem_singleton.mp new]
    exact ⟨Nat.le_refl _, Nat.lt_succ_self _⟩
  routes _ _ mem := .inl mem

theorem unsubscribe (bus : Bus) {f : Value} (dropped : ¬ kept f) : GoesOn kept bus (bus.unsubscribe f) where
  counter := Nat.le_refl _
  stays q mem keeps := List.mem_filter.mpr ⟨mem, by
    simpa using fun is : q.2.callback = f => dropped (is ▸ keeps)⟩
  patterns _ mem := .inl (List.mem_of_mem_filter mem)
  routes k s mem := by
    rw [Bus.unsubscribe, Assoc.get?_mapValues] at mem
    cases known : bus.routes.get? k with
    | none => simp [known] at mem
    | some ss =>
      rw [known, Option.map_some, Option.getD_some] at mem
      exact .inl (List.mem_of_mem_filter mem)

end GoesOn

theorem goesOn_set {c : Ref .bus} (live : w.heap.Live b) (goesOn : GoesOn kept (w.heap.get c) next) :
    (w.set c next).heap.Live b ∧ GoesOn kept (w.heap.get b) ((w.set c next).heap.get b) := by
  refine ⟨World.live_set.mpr live, ?_⟩
  by_cases same : b = c
  · subst same
    rwa [World.get_set b b next live, if_pos rfl]
  · rw [World.get_set_ne next same]
    exact .refl kept _

theorem goesOn_refused (kept : Value → Prop) {c : Ref .bus} (live : w.heap.Live b)
    (what : w.Near v ∨ v = w.set c (w.heap.get c).skip) :
    v.heap.Live b ∧ GoesOn kept (w.heap.get b) (v.heap.get b) := by
  rcases what with near | rfl
  · have table := near.table .bus rfl
    refine ⟨by rwa [Heap.Live, table], ?_⟩
    unfold Heap.get
    rw [table]
    exact .refl kept _
  · exact goesOn_set live (.skip kept _)

theorem goesOn_subscribeTo (kept : Value → Prop) (c : Ref .bus) (id f p : Value) (live : w.heap.Live b) :
    (subscribeTo c id f p w).2.heap.Live b ∧
      GoesOn kept (w.heap.get b) ((subscribeTo c id f p w).2.heap.get b) := by
  rcases subscribeTo_cases c id f p w with ⟨k, -, run⟩ | ⟨e, v, run, what⟩
  · rw [run]
    exact goesOn_set live (.subscribe kept _ k f p)
  · rw [run]
    exact goesOn_refused kept live what

theorem goesOn_run (kept : Value → Prop) (c : Call) (spares : ∀ f, c = .unsubscribe f → ¬ kept f)
    (live : w.heap.Live b) :
    (c.run b w).2.heap.Live b ∧ GoesOn kept (w.heap.get b) ((c.run b w).2.heap.get b) := by
  cases c with
  | subscribe id f p => exact goesOn_subscribeTo kept b id f p live
  | decorate d f => exact goesOn_subscribeTo kept (w.heap.get d).bus (w.heap.get d).id f (w.heap.get d).priority live
  | subscribePattern q f p =>
    rcases subscribeToPattern_cases b q f p w with ⟨s, rfl, run⟩ | ⟨e, v, run, what⟩
    · rw [Call.run, run]
      exact goesOn_set live (.subscribePattern kept _ s f p)
    · rw [Call.run, run]
      exact goesOn_refused kept live what
  | unsubscribe f => exact goesOn_set live (.unsubscribe _ (spares f rfl))

/-- What a bus goes through: calls of some kind on it, and whatever leaves it as it is. -/
inductive Through (b : Ref .bus) (allowed : Call → Prop) (w : World) : World → Prop
  | start : Through b allowed w w
  | meanwhile {v u : World} (before : Through b allowed w v) (live : u.heap.Live b)
      (same : u.heap.get b = v.heap.get b) : Through b allowed w u
  | called {v : World} (before : Through b allowed w v) (c : Call) (fits : allowed c) :
      Through b allowed w (c.run b v).2

theorem Through.goesOn (kept : Value → Prop) {allowed : Call → Prop} (through : Through b allowed w v)
    (spares : ∀ f, allowed (.unsubscribe f) → ¬ kept f) (live : w.heap.Live b) :
    v.heap.Live b ∧ GoesOn kept (w.heap.get b) (v.heap.get b) := by
  induction through with
  | start => exact ⟨live, .refl kept _⟩
  | meanwhile _ live same ih => exact ⟨live, same ▸ ih.2⟩
  | called _ c fits ih =>
    obtain ⟨live, before⟩ := ih
    obtain ⟨live, after⟩ := goesOn_run kept c (fun f is => spares f (is ▸ fits)) live
    exact ⟨live, before.trans after⟩

/-- What is found for the event ids of texts, unless it cannot be put in order. -/
theorem run_route_text (b : Ref .bus) (id : String) (w : World) : (route b (.str id)).run w =
    (if (w.heap.get b).sortable (.text id) then .ok ((w.heap.get b).select (.text id)) else .error .typeMismatch,
      w) := by
  have known : w.heap.key? (.str id) = some (.text id) := rfl
  by_cases sorts : (w.heap.get b).sortable (.text id)
  · simp [route, key, Edit.run_bind, known, Value.str?, sorts]
  · simp [route, key, Edit.run_bind, Quiet.run_map, known, Value.str?, sorts]
    rfl

theorem mem_select_text {s : Subscription} {id : String} : s ∈ bus.select (.text id) ↔
    s ∈ (bus.routes.get? (.text id)).getD [] ∨ ∃ q, (q, s) ∈ bus.patterns ∧ Event.Pattern.Matches q id := by
  unfold select
  rw [List.mem_mergeSort]
  simp [reached, Event.Pattern.admits_iff]

/-- A subscriber to a pattern is selected for the event ids that match it and for no others, from its
subscription on until it is unsubscribed, whatever the bus went through before and goes through meanwhile. -/
theorem pattern_selects {made : World} {p : String} {f priority x : Value} (live : made.heap.Live b)
    (new : made.heap.get b = {}) (before : Through b (fun _ => True) made w)
    (run : subscribeToPattern b (.str p) f priority w = (.ok x, v))
    (after : Through b (· ≠ .unsubscribe f) v u) (id : String) :
    (route b (.str id)).run u = (if (u.heap.get b).sortable (.text id) then
      .ok ((u.heap.get b).select (.text id)) else .error .typeMismatch, u) ∧
    (⟨f, priority, (w.heap.get b).counter, true⟩ ∈ (u.heap.get b).select (.text id) ↔
      Event.Pattern.Matches p id) := by
  refine ⟨run_route_text b id u, ?_⟩
  obtain ⟨alive, early⟩ := before.goesOn (fun _ => False) (fun _ _ => not_false) live
  rw [new] at early
  obtain rfl : v = w.set b ((w.heap.get b).subscribePattern p f priority) := by
    rcases subscribeToPattern_cases b (.str p) f priority w with ⟨q, is, ok⟩ | ⟨e, t, error, -⟩
    · cases is
      cases run.symm.trans ok
      rfl
    · cases run.symm.trans error
  obtain ⟨-, later⟩ := after.goesOn (· = f) (fun g fits is => fits (by rw [is]))
    (World.live_set.mpr alive)
  rw [World.get_set b b _ alive, if_pos rfl] at later
  -- The number of the new subscription is that of no other one, neither before nor after.
  let s : Subscription := ⟨f, priority, (w.heap.get b).counter, true⟩
  have notPatterned (q : String) : (q, s) ∉ (w.heap.get b).patterns := by
    intro mem
    rcases early.patterns _ mem with none | ⟨-, less⟩
    · cases none
    · exact Nat.lt_irrefl _ less
  have notRouted : s ∉ ((w.heap.get b).routes.get? (.text id)).getD [] := by
    intro mem
    rcases early.routes _ _ mem with none | ⟨-, less⟩
    · cases none
    · exact Nat.lt_irrefl _ less
  rw [mem_select_text]
  constructor
  · rintro (routed | ⟨q, patterned, fits⟩)
    · rcases later.routes _ _ routed with old | ⟨since, -⟩
      · exact absurd old notRouted
      · exact absurd since (Nat.not_succ_le_self _)
    · rcases later.patterns _ patterned with old | ⟨since, -⟩
      · rcases List.mem_append.mp old with older | new
        · exact absurd older (notPatterned q)
        · cases List.mem_singleton.mp new
          exact fits
      · exact absurd since (Nat.not_succ_le_self _)
  · exact fun fits => .inr ⟨p, later.stays (p, s) (List.mem_append_right _ List.mem_cons_self) rfl, fits⟩

/-- Of the event ids of a loader, `loader.*` selects those with one more segment. -/
theorem pattern_selects_in_segment :
    let u := ((Call.unsubscribe (.host "report")).run ⟨0⟩ board).2
    let s : Subscription := ⟨.host "watch", .int 5, 1, true⟩
    s ∈ (u.heap.get (⟨0⟩ : Ref .bus)).select (.text "loader.error") ∧
      s ∉ (u.heap.get (⟨0⟩ : Ref .bus)).select (.text "loader.module.linked") := by
  have before : Through (⟨0⟩ : Ref .bus) (fun _ => True) bareBoard
      ((Call.subscribe (.str "loader.error") (.host "report") (.int 0)).run ⟨0⟩ bareBoard).2 :=
    .called .start _ trivial
  have after : Through (⟨0⟩ : Ref .bus) (· ≠ .unsubscribe (.host "watch")) board
      ((Call.unsubscribe (.host "report")).run ⟨0⟩ board).2 :=
    .called .start _ (by simp)
  have selects := pattern_selects (p := "loader.*") (f := .host "watch") (by decide) rfl before rfl after
  constructor
  · exact (selects "loader.error").2.mpr (Event.Pattern.admits_iff.mp (by decide))
  · exact mt (selects "loader.module.linked").2.mp (mt Event.Pattern.admits_iff.mpr (by decide))

end Bus
end AsyncImport
