import AsyncImport.Proofs.Stories

/-!
# Passages

A passage says how a thread may go from a world on: what it has asked for so far, as stories, and what it
has come to, if it has come to an end. Passages are put together in the order in which things are to
happen. `comes_bind` and `comes_perform` take the code of an activity apart in the same way, so that code
whose stories are told can be shown to keep to a passage piece by piece.
-/

namespace AsyncImport

abbrev Passage (α : Type) : Type :=
  World → List Story → Option (Except (Ref .failure) α × World) → Prop

namespace Passage

variable {α β : Type}

inductive along (R : World → List Exchange → Except (Ref .failure) α → World → Prop) : Passage α
  | whole {w l o v ss} (goes : R w l o v) (completes : Story.Completes ss l) :
      along R w ss (some (o, v))
  | part {w l o v ss} (goes : R w l o v) (begins : Story.Begins ss l) : along R w ss none

inductive does (e : Edit α) : Passage α
  | undone {w} : does e w [] none
  | done {w} : does e w [] (some (e.after w))

inductive next (P : Passage α) (Q : α → Passage β) : Passage β
  | stopped {w ss} (first : P w ss none) : next P Q w ss none
  | failed {w ss e v} (first : P w ss (some (.error e, v))) : next P Q w ss (some (.error e, v))
  | goes {w u a ss ts r} (first : P w ss (some (.ok a, u))) (later : Q a u ts r) :
      next P Q w (ss ++ ts) r

inductive asks (a : Activity) (P : Passage Value) : Passage Value
  | unasked {w} : asks a P w [] none
  | asked {w ss r} (goes : P w ss r) : asks a P w [.mk (.call a) w ss r] r
  /-- The answer is there, but is not yet taken. -/
  | answered {w ss r} (goes : P w ss r) : asks a P w [.mk (.call a) w ss r] none

inductive awaits (f : Ref .future) : Passage Value
  | unasked {w} : awaits f w [] none
  | asked {w r} (grants : w.Grants f r) : awaits f w [.mk (.await f) w [] r] r
  /-- The answer is there, but is not yet taken. -/
  | answered {w r} (grants : w.Grants f r) : awaits f w [.mk (.await f) w [] r] none

section

variable {P P' : Passage α} {Q Q' : α → Passage β} {w u v : World} {ss : List Story}

theorem does.nothing {e : Edit α} {r : Option (Except (Ref .failure) α × World)} (goes : does e w ss r) :
    ss = [] := by
  cases goes <;> rfl

theorem next.mono {r : Option (Except (Ref .failure) β × World)} (goes : P.next Q w ss r)
    (first : ∀ ss r, P w ss r → P' w ss r)
    (later : ∀ a u ss ts r, P w ss (some (.ok a, u)) → Q a u ts r → Q' a u ts r) :
    P'.next Q' w ss r := by
  cases goes with
  | stopped goes => exact .stopped (first _ _ goes)
  | failed goes => exact .failed (first _ _ goes)
  | goes goes rest => exact .goes (first _ _ goes) (later _ _ _ _ _ goes rest)

theorem asks.mono {a : Activity} {P P' : Passage Value} {r : Option (Outcome × World)}
    (goes : asks a P w ss r) (each : ∀ ss r, P w ss r → P' w ss r) : asks a P' w ss r := by
  cases goes with
  | unasked => exact .unasked
  | asked goes => exact .asked (each _ _ goes)
  | answered goes => exact .answered (each _ _ goes)

theorem along.mono {R R' : World → List Exchange → Except (Ref .failure) α → World → Prop}
    {r : Option (Except (Ref .failure) α × World)} (goes : along R w ss r)
    (each : ∀ l o v, R w l o v → R' u l o v) : along R' u ss r := by
  cases goes with
  | whole goes completes => exact .whole (each _ _ _ goes) completes
  | part goes begins => exact .part (each _ _ _ goes) begins

end

end Passage

namespace Story

variable {ss : List Story} {l m : List Exchange}

theorem Completes.split (completes : Completes ss (l ++ m)) :
    ∃ ts us, ss = ts ++ us ∧ Completes ts l ∧ Completes us m := by
  induction l generalizing ss with
  | nil => exact ⟨[], ss, rfl, .nil, completes⟩
  | cons x l ih =>
    cases completes with
    | cons here later =>
      obtain ⟨ts, us, rfl, first, rest⟩ := ih later
      exact ⟨_ :: ts, us, rfl, .cons here first, rest⟩

theorem Begins.split (begins : Begins ss (l ++ m)) :
    Begins ss l ∨ ∃ ts us, ss = ts ++ us ∧ Completes ts l ∧ Begins us m := by
  induction l generalizing ss with
  | nil => exact .inr ⟨[], ss, rfl, .nil, begins⟩
  | cons x l ih =>
    cases begins with
    | none => exact .inl .none
    | last tells => exact .inl (.last tells)
    | next tells closed later =>
      rcases ih later with first | ⟨ts, us, rfl, first, rest⟩
      · exact .inl (.next tells closed first)
      · exact .inr ⟨_ :: ts, us, rfl, .cons ⟨tells, closed⟩ first, rest⟩

theorem Tells.eq {s : Story} {x : Exchange} (tells : s.Tells x) :
    s = .mk x.request x.before s.parts s.answer := by
  obtain ⟨r, w, ps, a⟩ := s
  obtain ⟨rfl, rfl, -⟩ := tells
  rfl

theorem Completes.single {r : Request} {w v : World} {o : Outcome}
    (completes : Completes ss [⟨r, w, o, v⟩]) : ∃ ps, ss = [.mk r w ps (some (o, v))] := by
  cases completes with
  | @cons s _ _ _ here rest =>
    cases rest
    obtain ⟨tells, closed⟩ := here
    refine ⟨s.parts, ?_⟩
    rcases answer : s.answer with _ | ⟨p, u⟩
    · exact absurd answer closed
    · obtain ⟨rfl, rfl⟩ := tells.answer p u answer
      rw [tells.eq, answer]
      rfl

theorem Begins.single {x : Exchange} (begins : Begins ss [x]) :
    ss = [] ∨ ∃ ps r, ss = [.mk x.request x.before ps r] := by
  cases begins with
  | none => exact .inl rfl
  | last tells => exact .inr ⟨_, _, congrArg (fun s => [s]) tells.eq⟩
  | next tells _ later =>
    cases later
    exact .inr ⟨_, _, congrArg (fun s => [s]) tells.eq⟩

end Story

/-! ## How code goes -/

namespace Routine

open Passage

variable {body : Meaning} {α β : Type} {w u v : World} {ss : List Story}

/-- Code that goes as it is written, with stories that are told. -/
structure Comes (body : Meaning) (x : Routine α) (w : World) (ss : List Story)
    (r : Option (Except (Ref .failure) α × World)) : Prop where
  along : Passage.along x.Unfolds w ss r
  each : ∀ s ∈ ss, s.Told body

section

variable {x : Routine α} {r : Option (Except (Ref .failure) α × World)}

theorem Comes.follows {R : World → List Exchange → Except (Ref .failure) α → World → Prop}
    (comes : x.Comes body w ss r) (each : ∀ l o v, x.Unfolds w l o v → R u l o v) :
    Passage.along R u ss r := comes.along.mono each

theorem Comes.alike {y : Routine α} (comes : x.Comes body w ss r)
    (each : ∀ l o v, x.Unfolds w l o v → y.Unfolds u l o v) : y.Comes body u ss r :=
  ⟨comes.follows each, comes.each⟩

end

end Routine
end AsyncImport
