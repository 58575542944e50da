import AsyncImport.Text.Wildcard
import Mathlib.Data.List.Basic

/-!
# Matching wildcard patterns

`accepts` goes from token to token and tries everything that may remain of the text; `Spells` splits
a text into one piece for each token. The two agree on every list of tokens (`accepts_iff`), however
many tokens can take up the same part of the text.
-/

namespace AsyncImport.Wildcard

variable {t : Token} {ts : List Token} {s rest : List Char} {sep : Char}

/-! ## What remains after a piece -/

theorem mem_restsOfRun :
    rest ∈ restsOfRun sep s ↔ ∃ piece, sep ∉ piece ∧ s = piece ++ rest := by
  induction s with
  | nil => simp [restsOfRun, eq_comm]
  | cons c s ih =>
    constructor
    · intro mem
      rcases List.mem_cons.mp mem with rfl | later
      · exact ⟨[], by simp⟩
      · split at later
        · cases later
        · next ne =>
          obtain ⟨piece, free, rfl⟩ := ih.mp later
          exact ⟨c :: piece, by simp [Ne.symm ne, free], rfl⟩
    · rintro ⟨piece, free, split⟩
      cases piece with
      | nil => simp_all [restsOfRun]
      | cons d piece =>
        obtain ⟨rfl, rfl⟩ := List.cons.inj split
        have ne : c ≠ sep := by rintro rfl; simp at free
        have later : rest ∈ restsOfRun sep (piece ++ rest) := ih.mpr ⟨piece, by simp_all, rfl⟩
        simp [restsOfRun, ne, later]

theorem mem_restsOfFolders :
    rest ∈ restsOfFolders s ↔ ∃ front, '\n' ∉ front ∧ s = front ++ '/' :: rest := by
  induction s with
  | nil => simp [restsOfFolders]
  | cons c s ih =>
    constructor
    · intro mem
      unfold restsOfFolders at mem
      split at mem
      · cases mem
      · next line =>
        have further (mem : rest ∈ restsOfFolders s) :
            ∃ front, '\n' ∉ front ∧ c :: s = front ++ '/' :: rest := by
          obtain ⟨front, free, rfl⟩ := ih.mp mem
          exact ⟨c :: front, by simp [Ne.symm line, free], rfl⟩
        split at mem
        · next slash =>
          rcases List.mem_cons.mp mem with rfl | later
          · exact ⟨[], by simp [slash]⟩
          · exact further later
        · exact further mem
    · rintro ⟨front, free, split⟩
      cases front with
      | nil =>
        obtain ⟨rfl, rfl⟩ := List.cons.inj split
        simp [restsOfFolders]
      | cons d front =>
        obtain ⟨rfl, rfl⟩ := List.cons.inj split
        have line : c ≠ '\n' := by rintro rfl; simp at free
        have later : rest ∈ restsOfFolders (front ++ '/' :: rest) :=
          ih.mpr ⟨front, by simp_all, rfl⟩
        by_cases slash : c = '/' <;> simp [restsOfFolders, line, slash, later]

/-- What may remain of a text after a token is what is left of it by a piece of the token. -/
theorem mem_rests : rest ∈ t.rests s ↔ ∃ piece, t.Piece piece ∧ s = piece ++ rest := by
  cases t with
  | char c =>
    cases s with
    | nil => simp [Token.rests, Token.Piece]
    | cons d s =>
      by_cases same : d = c
      · simp [Token.rests, Token.Piece, same, eq_comm]
      · simp [Token.rests, Token.Piece, same]
  | one sep =>
    cases s with
    | nil => simp [Token.rests, Token.Piece]
    | cons d s =>
      constructor
      · intro mem
        by_cases same : d = sep
        · simp [Token.rests, same] at mem
        · simp only [Token.rests, same, ↓reduceIte, List.mem_singleton] at mem
          exact ⟨[d], ⟨d, rfl, same⟩, by simp [mem]⟩
      · rintro ⟨_, ⟨c, rfl, ne⟩, split⟩
        obtain ⟨rfl, rfl⟩ := List.cons.inj split
        simp [Token.rests, ne]
  | run sep => exact mem_restsOfRun
  | folders =>
    simp only [Token.rests, Token.Piece, List.mem_cons, mem_restsOfFolders]
    constructor
    · rintro (rfl | ⟨front, free, rfl⟩)
      · exact ⟨[], .inl rfl, rfl⟩
      · exact ⟨front ++ ['/'], .inr ⟨front, rfl, free⟩, by simp⟩
    · rintro ⟨piece, rfl | ⟨front, rfl, free⟩, rfl⟩
      · exact .inl rfl
      · exact .inr ⟨front, free, by simp⟩

/-! ## Whole texts -/

@[simp] theorem spells_nil : Spells [] s ↔ s = [] := by
  constructor
  · intro spells
    cases spells
    rfl
  · rintro rfl
    exact .nil

theorem spells_cons :
    Spells (t :: ts) s ↔ ∃ piece rest, t.Piece piece ∧ Spells ts rest ∧ s = piece ++ rest := by
  constructor
  · intro spells
    cases spells with
    | cons piece rest => exact ⟨_, _, piece, rest, rfl⟩
  · rintro ⟨piece, rest, here, there, rfl⟩
    exact .cons here there

/-- A text is accepted when it, or it without one final newline, is spelt by the tokens. -/
theorem accepts_iff :
    accepts ts s = true ↔ ∃ text, Spells ts text ∧ (s = text ∨ s = text ++ ['\n']) := by
  induction ts generalizing s with
  | nil => simp [accepts]
  | cons t ts ih =>
    simp only [accepts, List.any_eq_true, ih, spells_cons]
    constructor
    · rintro ⟨rest, mem, text, spelt, ends⟩
      obtain ⟨piece, here, rfl⟩ := mem_rests.mp mem
      refine ⟨piece ++ text, ⟨piece, text, here, spelt, rfl⟩, ?_⟩
      rcases ends with rfl | rfl <;> simp
    · rintro ⟨_, ⟨piece, text, here, spelt, rfl⟩, ends⟩
      rcases ends with rfl | rfl
      · exact ⟨text, mem_rests.mpr ⟨piece, here, rfl⟩, text, spelt, .inl rfl⟩
      · exact ⟨text ++ ['\n'], mem_rests.mpr ⟨piece, here, by simp⟩, text, spelt, .inr rfl⟩

end AsyncImport.Wildcard
