import AsyncImport.Plugin.Matching
import AsyncImport.Proofs.Wildcards

/-!
# The language of path globs

What a glob stands for, read off its characters from left to right, and the comparison of values with
globs, which decides just that (`globMatch_decides`).
-/

namespace AsyncImport

namespace Glob

open Wildcard

inductive Describes : List Char → List Char → Prop
  | nil : Describes [] []
  | folders {p piece rest : List Char} (all : piece = [] ∨ ∃ front, piece = front ++ ['/'] ∧ '\n' ∉ front)
      (later : Describes p rest) : Describes ('*' :: '*' :: '/' :: p) (piece ++ rest)
  | line {p piece rest : List Char} (last : p.head? ≠ some '/') (all : '\n' ∉ piece)
      (later : Describes p rest) : Describes ('*' :: '*' :: p) (piece ++ rest)
  | segment {p piece rest : List Char} (last : p.head? ≠ some '*') (all : '/' ∉ piece)
      (later : Describes p rest) : Describes ('*' :: p) (piece ++ rest)
  | one {p rest : List Char} {c : Char} (inside : c ≠ '/') (later : Describes p rest) :
      Describes ('?' :: p) (c :: rest)
  | char {p rest : List Char} {c : Char} (star : c ≠ '*') (mark : c ≠ '?')
      (later : Describes p rest) : Describes (c :: p) (c :: rest)

/-- A value matches a glob that describes it, or describes it without one final newline. -/
def Matches (pattern value : String) : Prop :=
  ∃ text, Describes pattern.toList text ∧ (value.toList = text ∨ value.toList = text ++ ['\n'])

theorem spells_of_describes {p s : List Char} (describes : Describes p s) : Spells (tokens p) s := by
  induction describes with
  | nil => exact .nil
  | folders all _ ih => exact .cons all ih
  | @line p piece rest last all _ ih =>
    have reads : tokens ('*' :: '*' :: p) = .run '\n' :: tokens p := by
      cases p with
      | nil => rfl
      | cons c p =>
        have ne : c ≠ '/' := by rintro rfl; simp at last
        simp [tokens, ne]
    rw [reads]
    exact .cons all ih
  | @segment p piece rest last all _ ih =>
    have reads : tokens ('*' :: p) = .run '/' :: tokens p := by
      cases p with
      | nil => rfl
      | cons c p =>
        have ne : c ≠ '*' := by rintro rfl; simp at last
        simp [tokens, ne]
    rw [reads]
    exact .cons all ih
  | @one p rest c inside _ ih =>
    exact spells_cons.mpr ⟨[c], _, ⟨c, rfl, inside⟩, ih, rfl⟩
  | @char p rest c star mark _ ih =>
    have reads : tokens (c :: p) = .char c :: tokens p := by simp [tokens, star]
    rw [reads]
    exact spells_cons.mpr ⟨[c], _, rfl, ih, rfl⟩

theorem describes_of_spells {p s : List Char} (spells : Spells (tokens p) s) : Describes p s := by
  fun_induction tokens p generalizing s with
  | case1 p ih =>
    obtain ⟨piece, rest, all, later, rfl⟩ := spells_cons.mp spells
    exact .folders all (ih later)
  | case2 p last ih =>
    obtain ⟨piece, rest, all, later, rfl⟩ := spells_cons.mp spells
    refine .line ?_ all (ih later)
    intro slash
    obtain ⟨q, rfl⟩ := List.head?_eq_some_iff.mp slash
    exact last q rfl
  | case3 p _ last ih =>
    obtain ⟨piece, rest, all, later, rfl⟩ := spells_cons.mp spells
    refine .segment ?_ all (ih later)
    intro star
    obtain ⟨q, rfl⟩ := List.head?_eq_some_iff.mp star
    exact last q rfl
  | case4 p ih =>
    obtain ⟨_, rest, ⟨c, rfl, inside⟩, later, rfl⟩ := spells_cons.mp spells
    exact .one inside (ih later)
  | case5 c p _ _ star mark ih =>
    obtain ⟨_, rest, rfl, later, rfl⟩ := spells_cons.mp spells
    exact .char star mark (ih later)
  | case6 =>
    rw [spells_nil.mp spells]
    exact .nil

theorem describes_iff_spells {p s : List Char} : Describes p s ↔ Spells (tokens p) s :=
  ⟨spells_of_describes, describes_of_spells⟩

theorem admits_iff {pattern value : String} :
    admits pattern value = true ↔ Matches pattern value := by
  simp only [admits, Matches, accepts_iff, describes_iff_spells]

end Glob

/-- Comparing a text with a glob always gives an answer, and changes nothing. -/
theorem globMatch_decides (value pattern : String) (w : World) :
    ∃ b, (globMatch (.str value) (.str pattern)).run w = (.ok b, w) ∧
      (b = true ↔ Glob.Matches pattern value) :=
  ⟨Glob.admits pattern value, rfl, Glob.admits_iff⟩

end AsyncImport
