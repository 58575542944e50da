import AsyncImport.Proofs.Abreast
import AsyncImport.Proofs.Transcripts

/-!
# Routines in lockstep

Two routines that begin in worlds which look alike, and make the same calls, stay together as long as what
they ask answers the one as it answers the other. `Consistent` says this of two transcripts: the same call
is answered the same, and what one resolver hands over comes to what the other gives at once. `Locks` says
that two routines stay together, and holds of a sequence if it holds of its parts.
-/

namespace AsyncImport

open Edit

variable {Q : Ref .plugin → Prop}

namespace Exchange

def call? (x : Exchange) : Option (Value × Value × Value) :=
  match x.request with
  | .call (.invoke f [a, b]) => some (f, a, b)
  | _ => none

theorem request_of_call? {x : Exchange} (call : x.call?.isSome) :
    ∃ f a b, x.request = .call (.invoke f [a, b]) := by
  unfold call? at call
  split at call
  · next f a b is => exact ⟨f, a, b, is⟩
  · cases call

structure SameAnswer (x y : Exchange) : Prop where
  outcome : y.outcome = x.outcome
  alike : x.after.heap.Alike y.after.heap

structure Repeats (x y : Exchange) : Prop where
  call : x.call?.isSome
  request : y.request = x.request
  alike : x.before.heap.Alike y.before.heap

def Pairs (Q : Ref .plugin → Prop) (x y : Exchange) : Prop :=
  ∃ (r : Ref .registry) (n : String), x.before.heap.Resolves Q r ∧
    x.request = .call (.invoke (x.before.heap.get r).resolver [.str n]) ∧
    y.request = .call (.invoke (x.before.heap.get r).directResolver [.str n]) ∧
    x.before.heap.Alike y.before.heap

/-- The resolvers stay in pairs, and no handler puts its result off. -/
structure Fits (Q : Ref .plugin → Prop) (x : Exchange) : Prop where
  paired : x.after.heap.Paired Q
  prompt : ∀ {f d options r}, x.request = .call (.invoke f [.obj .draft d, options]) →
    x.outcome = .ok r → r.isAwaitable = false

end Exchange

def calls (l : List Exchange) : List (Value × Value × Value) := l.filterMap Exchange.call?

theorem calls_append (l m : List Exchange) : calls (l ++ m) = calls l ++ calls m :=
  List.filterMap_append

/-- As long as two transcripts have gone the same way, they go on so: a call that is repeated is answered
the same, and a module that a resolver promises is the one that the other resolver gives. -/
def Consistent (Q : Ref .plugin → Prop) : List Exchange → List Exchange → Prop
  | x :: l, y :: m =>
    (x.Repeats y → x.SameAnswer y ∧ Consistent Q l m) ∧
    (x.Pairs Q y → match x.outcome with
      | .error _ => x.SameAnswer y ∧ Consistent Q l m
      | .ok a => a.isAwaitable ∧ match l with
        | z :: l => z.request = .call (.awaitValue a) → z.before = x.after →
          z.SameAnswer y ∧ Consistent Q l m
        | [] => True)
  | _, _ => True

structure World.Abreast (Q : Ref .plugin → Prop) (w v : World) : Prop where
  alike : w.heap.Alike v.heap
  paired : w.heap.Paired Q

theorem World.Abreast.level {w v : World} (abreast : w.Abreast Q v) :
    w.Level Q (w.heap.Agree v.heap) v := ⟨abreast.alike, rfl, abreast.paired⟩

theorem World.Level.abreast {w v : World} {P : Ref .future → Prop} (level : w.Level Q P v) :
    w.Abreast Q v := ⟨level.alike, level.paired⟩

namespace Routine

variable {α β : Type} {w v : World}

/-- How two routines that have stayed together ended, and what is left of their transcripts. -/
structure Meets (Q : Ref .plugin → Prop) (R : α → Prop) (l : List Exchange)
    (o : Except (Ref .failure) α) (u : World) (l' : List Exchange) (o' : Except (Ref .failure) α)
    (u' : World) (m m' : List Exchange) : Prop where
  outcome : o' = o
  calls : calls l' = calls l
  abreast : u.Abreast Q u'
  rest : Consistent Q m m'
  holds : ∀ a, o = .ok a → R a

def Locks (Q : Ref .plugin → Prop) (c d : Routine α) (w v : World) (R : α → Prop) : Prop :=
  ∀ l o u l' o' u' m m', c.Unfolds w l o u → d.Unfolds v l' o' u' → (∀ x ∈ l, x.Fits Q) →
    Consistent Q (l ++ m) (l' ++ m') → Meets Q R l o u l' o' u' m m'

variable {c d : Routine α} {f g : α → Routine β} {R : α → Prop} {S : β → Prop}

theorem Locks.mono (locks : Locks Q c d w v R) {T : α → Prop} (weaker : ∀ a, R a → T a) :
    Locks Q c d w v T := fun _ _ _ _ _ _ _ _ left right fits consistent =>
  let met := locks _ _ _ _ _ _ _ _ left right fits consistent
  { met with holds := fun a is => weaker a (met.holds a is) }

theorem locks_done {a : α} (abreast : w.Abreast Q v) (holds : R a) :
    Locks Q (.done a) (.done a) w v R := by
  intro l o u l' o' u' m m' left right _ consistent
  obtain ⟨rfl, rfl, rfl⟩ := unfolds_done.mp left
  obtain ⟨rfl, rfl, rfl⟩ := unfolds_done.mp right
  exact ⟨rfl, rfl, abreast, consistent, fun b is => by cases is; exact holds⟩

theorem locks_bind (first : Locks Q c d w v R)
    (next : ∀ a w v, R a → w.Abreast Q v → Locks Q (f a) (g a) w v S) :
    Locks Q (c.bind f) (d.bind g) w v S := by
  intro l o u l' o' u' m m' left right fits consistent
  rcases unfolds_bind.mp left with ⟨a, l₁, l₂, x, rfl, begun, later⟩ | ⟨e, rfl, begun⟩
  · obtain ⟨before, after⟩ := List.forall_mem_append.mp fits
    rcases unfolds_bind.mp right with ⟨b, k₁, k₂, y, rfl, begun', later'⟩ | ⟨e, rfl, begun'⟩
    · rw [List.append_assoc, List.append_assoc] at consistent
      have met := first _ _ _ _ _ _ _ _ begun begun' before consistent
      cases met.outcome
      have meets := next a x y (met.holds a rfl) met.abreast _ _ _ _ _ _ _ _ later later' after met.rest
      refine { meets with calls := ?_ }
      rw [calls_append, calls_append, met.calls, meets.calls]
    · rw [List.append_assoc] at consistent
      cases (first _ _ _ _ _ _ _ _ begun begun' before consistent).outcome
  · rcases unfolds_bind.mp right with ⟨b, k₁, k₂, y, rfl, begun', later'⟩ | ⟨e', rfl, begun'⟩
    · rw [List.append_assoc] at consistent
      cases (first _ _ _ _ _ _ _ _ begun begun' fits consistent).outcome
    · have met := first _ _ _ _ _ _ _ _ begun begun' fits consistent
      cases met.outcome
      exact { met with outcome := rfl, holds := fun _ never => by cases never }

theorem locks_edit {e : Edit α} {P : Ref .future → Prop} (even : e.Even Q P w v R) :
    Locks Q (edit e) (edit e) w v R := by
  intro l o u l' o' u' m m' left right _ consistent
  obtain ⟨rfl, ends⟩ := unfolds_edit.mp left
  obtain ⟨rfl, ends'⟩ := unfolds_edit.mp right
  obtain ⟨result, level, holds⟩ := even
  unfold Edit.after at ends ends'
  rcases here : e w with ⟨c | a, x⟩ <;> rcases there : e v with ⟨c' | a', y⟩ <;>
    simp only [here, there] at result level holds ends ends' <;> cases result <;> cases ends <;>
    cases ends'
  · refine ⟨congrArg Except.error (level.alike.fresh .failure rfl), rfl, ?_, consistent,
      fun _ never => by cases never⟩
    exact (level.alloc rfl rfl (by simp [Cell.parts])).abreast
  · exact ⟨rfl, rfl, level.abreast, consistent, fun b is => by cases is; exact holds _ rfl⟩

theorem locks_look {e : Edit α} (abreast : w.Abreast Q v) (sees : e.Sees w v)
    (next : ∀ a, e w = (.ok a, w) → Locks Q (f a) (g a) w v S) :
    Locks Q ((edit e).bind f) ((edit e).bind g) w v S := by
  obtain ⟨c | a, here, there⟩ := sees
  · have stops : Locks Q (edit e) (edit e) w v fun _ => False :=
      locks_edit (Sees.even abreast.level ⟨_, here, there⟩ fun a is => by cases here.symm.trans is)
    exact locks_bind stops fun _ _ _ never => never.elim
  · intro l o u l' o' u' m m' left right
    exact next a here _ _ _ _ _ _ _ _ ((unfolds_doing here).mp left) ((unfolds_doing there).mp right)

theorem locks_raise (abreast : w.Abreast Q v) (t : Refusal) :
    Locks Q (raise t : Routine α) (raise t) w v R := locks_edit (even_throw abreast.level)

theorem locks_call (abreast : w.Abreast Q v) (h a b : Value) : Locks Q (callValue h [a, b])
    (callValue h [a, b]) w v fun r => ∀ d, a = .obj .draft d → r.isAwaitable = false := by
  intro l o u l' o' u' m m' left right fits consistent
  obtain rfl := unfolds_perform.mp left
  obtain rfl := unfolds_perform.mp right
  rw [List.singleton_append, List.singleton_append, Consistent] at consistent
  obtain ⟨⟨outcome, alike⟩, rest⟩ := consistent.1 ⟨rfl, rfl, abreast.alike⟩
  obtain ⟨paired, prompt⟩ := fits _ List.mem_cons_self
  refine ⟨outcome, rfl, ⟨alike, paired⟩, rest, fun r is d draft => ?_⟩
  subst draft
  exact prompt rfl is

theorem locks_resolve {r : Ref .registry} (abreast : w.Abreast Q v) (resolves : w.heap.Resolves Q r)
    (n : String) : Locks Q ((callValue (w.heap.get r).resolver [.str n]).bind awaitGiven)
      (callValue (w.heap.get r).directResolver [.str n]) w v fun _ => True := by
  intro l o u l' o' u' m m' left right fits consistent
  obtain rfl := unfolds_perform.mp right
  rcases unfolds_bind.mp left with ⟨a, l₁, l₂, x, rfl, begun, later⟩ | ⟨e, rfl, begun⟩
  · obtain rfl := unfolds_perform.mp begun
    rw [List.append_assoc, List.singleton_append, List.singleton_append, Consistent] at consistent
    obtain ⟨awaitable, kept⟩ := consistent.2 ⟨r, n, resolves, rfl, rfl, abreast.alike⟩
    unfold awaitGiven at later
    rw [if_pos awaitable] at later
    obtain rfl := unfolds_perform.mp later
    obtain ⟨⟨outcome, alike⟩, rest⟩ := kept rfl rfl
    have paired := (fits _ (List.mem_cons_of_mem _ List.mem_cons_self)).paired
    exact ⟨outcome, rfl, ⟨alike, paired⟩, rest, fun _ _ => trivial⟩
  · obtain rfl := unfolds_perform.mp begun
    rw [List.singleton_append, List.singleton_append, Consistent] at consistent
    obtain ⟨⟨outcome, alike⟩, rest⟩ := consistent.2 ⟨r, n, resolves, rfl, rfl, abreast.alike⟩
    have paired := (fits _ List.mem_cons_self).paired
    exact ⟨outcome, rfl, ⟨alike, paired⟩, rest, fun _ _ => trivial⟩

/-! ## Loops -/

variable {γ : Type} {bs : List γ}

theorem locks_foldlM {f g : α → γ → Routine α} {a : α} (abreast : w.Abreast Q v)
    (each : ∀ b ∈ bs, ∀ a w v, w.Abreast Q v → Locks Q (f a b) (g a b) w v fun _ => True) :
    Locks Q (bs.foldlM f a) (bs.foldlM g a) w v fun _ => True := by
  induction bs generalizing a w v with
  | nil => exact locks_done abreast trivial
  | cons b bs ih =>
    rw [List.foldlM_cons, List.foldlM_cons]
    exact locks_bind (each b List.mem_cons_self a w v abreast) fun _ _ _ _ abreast =>
      ih abreast fun c mem => each c (List.mem_cons_of_mem _ mem)

theorem locks_anyM {f : γ → Routine Bool} (abreast : w.Abreast Q v)
    (each : ∀ b ∈ bs, ∀ w v, w.Abreast Q v → Locks Q (f b) (f b) w v fun _ => True) :
    Locks Q (bs.anyM f) (bs.anyM f) w v fun _ => True := by
  induction bs generalizing w v with
  | nil => exact locks_done abreast trivial
  | cons b bs ih =>
    rw [List.anyM_cons]
    refine locks_bind (each b List.mem_cons_self w v abreast) fun found w v _ abreast => ?_
    cases found with
    | true => exact locks_done abreast trivial
    | false => exact ih abreast fun c mem => each c (List.mem_cons_of_mem _ mem)

theorem mem_taken {b : γ} {acc cs : List γ} (mem : b ∈ cs) (held : ∀ c ∈ acc, c ∈ cs)
    (found : Bool) : ∀ c ∈ (bif found then b :: acc else acc), c ∈ cs := by
  cases found with
  | true => exact List.forall_mem_cons.mpr ⟨mem, held⟩
  | false => exact held

theorem locks_filterAuxM {f : γ → Routine Bool} {acc cs : List γ} (abreast : w.Abreast Q v)
    (each : ∀ b ∈ bs, ∀ w v, w.Abreast Q v → Locks Q (f b) (f b) w v fun _ => True)
    (sub : ∀ b ∈ bs, b ∈ cs) (held : ∀ b ∈ acc, b ∈ cs) :
    Locks Q (bs.filterAuxM f acc) (bs.filterAuxM f acc) w v fun ds => ∀ b ∈ ds, b ∈ cs := by
  induction bs generalizing acc w v with
  | nil => exact locks_done abreast held
  | cons b bs ih =>
    refine locks_bind (each b List.mem_cons_self w v abreast) fun found w v _ abreast => ?_
    exact ih abreast (fun c mem => each c (List.mem_cons_of_mem _ mem))
      (fun c mem => sub c (List.mem_cons_of_mem _ mem))
      (mem_taken (sub b List.mem_cons_self) held found)

/-- A list is filtered; what the test of its first item tells is known from then on. -/
theorem locks_filterM {f : γ → Routine Bool} {K : Prop} (abreast : w.Abreast Q v)
    (first : ∀ b ∈ bs, Locks Q (f b) (f b) w v fun _ => K)
    (each : K → ∀ b ∈ bs, ∀ w v, w.Abreast Q v → Locks Q (f b) (f b) w v fun _ => True) :
    Locks Q (bs.filterM f) (bs.filterM f) w v fun cs => ∀ b ∈ cs, b ∈ bs := by
  have filtered : Locks Q (bs.filterAuxM f []) (bs.filterAuxM f []) w v fun ds => ∀ b ∈ ds, b ∈ bs := by
    cases bs with
    | nil => exact locks_done abreast (by simp)
    | cons b cs =>
      -- only the first item has nothing to go by
      refine locks_bind (first b List.mem_cons_self) fun found w v known abreast => ?_
      exact locks_filterAuxM abreast (fun c mem => each known c (List.mem_cons_of_mem _ mem))
        (fun c mem => List.mem_cons_of_mem _ mem) (mem_taken List.mem_cons_self (by simp) found)
  refine locks_bind filtered fun cs w v held abreast => ?_
  exact locks_done abreast fun b mem => held b (List.mem_reverse.mp mem)

end Routine
end AsyncImport
