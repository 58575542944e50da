import AsyncImport.Proofs.Edits

/-!
# Transcripts of routines

A routine, begun in some world, asks the machine for one thing after the other. `Routine.Unfolds`
follows it to its end, whatever the answers are; the transcript lists the requests with their answers.
Every way of answering leads to an end (`exists_unfolds`), and a machine that has the routine in focus
goes through what it unfolds to (`carries_of_unfolds`).
-/

namespace AsyncImport

inductive Request where
  | call (a : Activity)
  | pause
  | await (f : Ref .future)
  deriving DecidableEq

/-- A request and its answer, with the worlds before and after. -/
structure Exchange where
  request : Request
  before : World
  outcome : Outcome
  after : World

namespace Routine

variable {α β : Type} {w u v : World} {l : List Exchange} {o : Except (Ref .failure) α}

inductive Unfolds : Routine α → World → List Exchange → Except (Ref .failure) α → World → Prop
  | done (a : α) (w : World) : Unfolds (.done a) w [] (.ok a) w
  | fail (e : Ref .failure) (w : World) : Unfolds (.fail e) w [] (.error e) w
  | read {k : World → Routine α} {w v l o} (later : Unfolds (k w) w l o v) :
      Unfolds (.read k) w l o v
  | write {k : Routine α} {w u v l o} (later : Unfolds k u l o v) : Unfolds (.write u k) w l o v
  | call {a : Activity} {k : Outcome → Routine α} {w u v x l o} (later : Unfolds (k x) u l o v) :
      Unfolds (.call a k) w (⟨.call a, w, x, u⟩ :: l) o v
  | pause {k : Outcome → Routine α} {w u v x l o} (later : Unfolds (k x) u l o v) :
      Unfolds (.pause k) w (⟨.pause, w, x, u⟩ :: l) o v
  | await {f : Ref .future} {k : Outcome → Routine α} {w u v x l o}
      (later : Unfolds (k x) u l o v) : Unfolds (.await f k) w (⟨.await f, w, x, u⟩ :: l) o v

/-! ## Single requests -/

@[simp] theorem unfolds_done {a : α} :
    (done a).Unfolds w l o v ↔ l = [] ∧ o = .ok a ∧ v = w := by
  constructor
  · intro unfolds
    cases unfolds
    simp
  · rintro ⟨rfl, rfl, rfl⟩
    exact .done a v

@[simp] theorem unfolds_fail {e : Ref .failure} :
    (fail e : Routine α).Unfolds w l o v ↔ l = [] ∧ o = .error e ∧ v = w := by
  constructor
  · intro unfolds
    cases unfolds
    simp
  · rintro ⟨rfl, rfl, rfl⟩
    exact .fail e v

@[simp] theorem unfolds_read {k : World → Routine α} :
    (read k).Unfolds w l o v ↔ (k w).Unfolds w l o v := by
  constructor
  · intro unfolds
    cases unfolds with
    | read later => exact later
  · exact .read

@[simp] theorem unfolds_write {k : Routine α} :
    (write u k).Unfolds w l o v ↔ k.Unfolds u l o v := by
  constructor
  · intro unfolds
    cases unfolds with
    | write later => exact later
  · exact .write

theorem unfolds_call {a : Activity} {k : Outcome → Routine α} :
    (call a k).Unfolds w l o v ↔
      ∃ x u m, l = ⟨.call a, w, x, u⟩ :: m ∧ (k x).Unfolds u m o v := by
  constructor
  · intro unfolds
    cases unfolds with
    | call later => exact ⟨_, _, _, rfl, later⟩
  · rintro ⟨x, u, m, rfl, later⟩
    exact .call later

/-! ## Routines in a row -/

theorem unfolds_andThen {x : Routine β} {f : β → Routine α} {g : Ref .failure → Routine α} :
    (x.andThen f g).Unfolds w l o v ↔ ∃ l₁ l₂ p u, l = l₁ ++ l₂ ∧ x.Unfolds w l₁ p u ∧
      (match p with
        | .ok b => f b
        | .error e => g e).Unfolds u l₂ o v := by
  constructor
  · intro unfolds
    induction x generalizing w l with
    | done b => exact ⟨[], l, .ok b, w, rfl, .done b w, unfolds⟩
    | fail e => exact ⟨[], l, .error e, w, rfl, .fail e w, unfolds⟩
    | read k ih =>
      obtain ⟨l₁, l₂, p, u, split, first, next⟩ := ih w (unfolds_read.mp unfolds)
      exact ⟨l₁, l₂, p, u, split, .read first, next⟩
    | write z k ih =>
      obtain ⟨l₁, l₂, p, u, split, first, next⟩ := ih (unfolds_write.mp unfolds)
      exact ⟨l₁, l₂, p, u, split, .write first, next⟩
    | call a k ih =>
      cases unfolds with
      | call later =>
        obtain ⟨l₁, l₂, p, u, rfl, first, next⟩ := ih _ later
        exact ⟨_ :: l₁, l₂, p, u, rfl, .call first, next⟩
    | pause k ih =>
      cases unfolds with
      | pause later =>
        obtain ⟨l₁, l₂, p, u, rfl, first, next⟩ := ih _ later
        exact ⟨_ :: l₁, l₂, p, u, rfl, .pause first, next⟩
    | await r k ih =>
      cases unfolds with
      | await later =>
        obtain ⟨l₁, l₂, p, u, rfl, first, next⟩ := ih _ later
        exact ⟨_ :: l₁, l₂, p, u, rfl, .await first, next⟩
  · rintro ⟨l₁, l₂, p, u, rfl, first, next⟩
    induction first with
    | done b w => exact next
    | fail e w => exact next
    | read _ ih => exact .read (ih next)
    | write _ ih => exact .write (ih next)
    | call _ ih => exact .call (ih next)
    | pause _ ih => exact .pause (ih next)
    | await _ ih => exact .await (ih next)

theorem unfolds_bind {x : Routine β} {f : β → Routine α} :
    (x.bind f).Unfolds w l o v ↔
      (∃ b l₁ l₂ u, l = l₁ ++ l₂ ∧ x.Unfolds w l₁ (.ok b) u ∧ (f b).Unfolds u l₂ o v) ∨
      ∃ e, o = .error e ∧ x.Unfolds w l (.error e) v := by
  rw [← andThen_fail, unfolds_andThen]
  constructor
  · rintro ⟨l₁, l₂, e | b, u, rfl, first, next⟩
    · obtain ⟨rfl, rfl, rfl⟩ := unfolds_fail.mp next
      exact .inr ⟨e, rfl, by simpa using first⟩
    · exact .inl ⟨b, l₁, l₂, u, rfl, first, next⟩
  · rintro (⟨b, l₁, l₂, u, rfl, first, next⟩ | ⟨e, rfl, first⟩)
    · exact ⟨l₁, l₂, .ok b, u, rfl, first, next⟩
    · exact ⟨l, [], .error e, v, by simp, first, .fail e v⟩

theorem unfolds_edit {e : Edit α} : (edit e).Unfolds w l o v ↔ l = [] ∧ e.after w = (o, v) := by
  unfold edit
  rcases ends : e.after w with ⟨c | a, u⟩
  · simp [ends, ofResult, eq_comm]
  · simp [ends, ofResult, eq_comm]

theorem unfolds_doing {e : Edit β} {f : β → Routine α} {b : β} (run : e w = (.ok b, u)) :
    ((edit e).bind f).Unfolds w l o v ↔ (f b).Unfolds u l o v := by
  have ends : e.after w = (.ok b, u) := Edit.after_ok run
  simp [edit, bind, ends, ofResult]

theorem unfolds_perform {a : Activity} {x : Outcome} :
    (perform a).Unfolds w l x v ↔ l = [⟨.call a, w, x, v⟩] := by
  unfold perform
  rw [unfolds_call]
  constructor
  · rintro ⟨y, u, m, rfl, ends⟩
    cases y <;> obtain ⟨rfl, rfl, rfl⟩ := by simpa [ofOutcome] using ends
    all_goals rfl
  · rintro rfl
    exact ⟨x, v, [], rfl, by cases x <;> simp [ofOutcome]⟩

/-- The answers of a transcript are those that a strategy gives, which knows all that came before. -/
def Answered (answer : List Exchange → Request → World → Outcome × World) (l : List Exchange) : Prop :=
  ∀ past x later, l = past ++ x :: later → (x.outcome, x.after) = answer past x.request x.before

theorem answered_cons {answer : List Exchange → Request → World → Outcome × World} {x : Exchange}
    (first : (x.outcome, x.after) = answer [] x.request x.before)
    (next : Answered (fun past => answer (x :: past)) l) : Answered answer (x :: l) := by
  intro past y later split
  cases past with
  | nil =>
    obtain ⟨rfl, -⟩ := List.cons.inj split
    exact first
  | cons z past =>
    obtain ⟨rfl, rest⟩ := List.cons.inj split
    exact next past y later rest

theorem exists_unfolds (r : Routine α)
    (answer : List Exchange → Request → World → Outcome × World) (w : World) :
    ∃ l o v, r.Unfolds w l o v ∧ Answered answer l := by
  induction r generalizing answer w with
  | done a => exact ⟨[], _, _, .done a w, by simp [Answered]⟩
  | fail e => exact ⟨[], _, _, .fail e w, by simp [Answered]⟩
  | read k ih =>
    obtain ⟨l, o, v, unfolds, answered⟩ := ih w answer w
    exact ⟨l, o, v, .read unfolds, answered⟩
  | write u k ih =>
    obtain ⟨l, o, v, unfolds, answered⟩ := ih answer u
    exact ⟨l, o, v, .write unfolds, answered⟩
  | call a k ih =>
    let x := answer [] (.call a) w
    obtain ⟨l, o, v, unfolds, answered⟩ :=
      ih x.1 (fun past => answer (⟨.call a, w, x.1, x.2⟩ :: past)) x.2
    exact ⟨_, o, v, .call unfolds, answered_cons rfl answered⟩
  | pause k ih =>
    let x := answer [] .pause w
    obtain ⟨l, o, v, unfolds, answered⟩ :=
      ih x.1 (fun past => answer (⟨.pause, w, x.1, x.2⟩ :: past)) x.2
    exact ⟨_, o, v, .pause unfolds, answered_cons rfl answered⟩
  | await f k ih =>
    let x := answer [] (.await f) w
    obtain ⟨l, o, v, unfolds, answered⟩ :=
      ih x.1 (fun past => answer (⟨.await f, w, x.1, x.2⟩ :: past)) x.2
    exact ⟨_, o, v, .await unfolds, answered_cons rfl answered⟩

def traced (answer : Request → World → Outcome × World) :
    Routine α → World → List Exchange × Except (Ref .failure) α × World
  | .done a, w => ([], .ok a, w)
  | .fail e, w => ([], .error e, w)
  | .read k, w => (k w).traced answer w
  | .write u k, _ => k.traced answer u
  | .call a k, w => match answer (.call a) w with
    | (x, u) => match (k x).traced answer u with
      | (l, ends) => (⟨.call a, w, x, u⟩ :: l, ends)
  | .pause k, w => match answer .pause w with
    | (x, u) => match (k x).traced answer u with
      | (l, ends) => (⟨.pause, w, x, u⟩ :: l, ends)
  | .await f k, w => match answer (.await f) w with
    | (x, u) => match (k x).traced answer u with
      | (l, ends) => (⟨.await f, w, x, u⟩ :: l, ends)

theorem unfolds_traced (answer : Request → World → Outcome × World) (r : Routine α) (w : World) :
    r.Unfolds w (r.traced answer w).1 (r.traced answer w).2.1 (r.traced answer w).2.2 := by
  induction r generalizing w with
  | done a => exact .done a w
  | fail e => exact .fail e w
  | read k ih => exact .read (ih w w)
  | write u k ih => exact .write (ih u)
  | call a k ih => exact .call (ih _ _)
  | pause k ih => exact .pause (ih _ _)
  | await f k ih => exact .await (ih _ _)

theorem traced_answered (answer : Request → World → Outcome × World) (r : Routine α) (w : World) :
    ∀ x ∈ (r.traced answer w).1, (x.outcome, x.after) = answer x.request x.before := by
  induction r generalizing w with
  | done a => exact fun _ never => by cases never
  | fail e => exact fun _ never => by cases never
  | read k ih => exact ih w w
  | write u k ih => exact ih u
  | call a k ih => exact List.forall_mem_cons.mpr ⟨rfl, ih _ _⟩
  | pause k ih => exact List.forall_mem_cons.mpr ⟨rfl, ih _ _⟩
  | await f k ih => exact List.forall_mem_cons.mpr ⟨rfl, ih _ _⟩

end Routine

/-! ## What a machine does -/

namespace Machine

open Routine

variable {body : Meaning}

theorem turn_idle {m : Machine} (idle : m.focus = none) (n : Nat) : m.turn body n = m := by
  cases n with
  | zero => rfl
  | succ n => simp [turn, idle]

theorem turn_add (m : Machine) (n k : Nat) : m.turn body (n + k) = (m.turn body n).turn body k := by
  induction n generalizing m with
  | zero => simp [turn]
  | succ n ih =>
    rw [Nat.add_right_comm]
    cases focus : m.focus with
    | none => rw [turn_idle focus, turn_idle focus, turn_idle focus]
    | some x => simp only [turn, focus, ih]

/-- A machine that has code in focus comes to have other code there, within the same activity and
with the same work below it. -/
def Carries (body : Meaning) (c : Routine Value) (w : World) (d : Routine Value) (v : World) : Prop :=
  ∀ (m : Machine) (owner : Option (Ref .future)) (a : Option Activity) (frames : List Frame), ∃ n,
    turn body n { m with focus := some ⟨owner, a, c, frames⟩, world := w } =
      { m with focus := some ⟨owner, a, d, frames⟩, world := v }

theorem Carries.refl (c : Routine Value) (w : World) : Carries body c w c w :=
  fun _ _ _ _ => ⟨0, rfl⟩

theorem Carries.trans {b c d : Routine Value} {u w v : World} (first : Carries body b u c w)
    (next : Carries body c w d v) : Carries body b u d v := by
  intro m owner a frames
  obtain ⟨n, here⟩ := first m owner a frames
  obtain ⟨k, there⟩ := next m owner a frames
  exact ⟨n + k, by rw [turn_add, here, there]⟩

theorem carries_read (k : World → Routine Value) (w : World) : Carries body (.read k) w (k w) w :=
  fun _ _ _ _ => ⟨1, rfl⟩

theorem carries_write (u : World) (k : Routine Value) (w : World) :
    Carries body (.write u k) w k u := fun _ _ _ _ => ⟨1, rfl⟩

theorem carries_call {a : Activity} {k : Outcome → Routine Value} {w u : World} {x : Outcome}
    (within : Carries body (body a) w (ofOutcome x) u) : Carries body (.call a k) w (k x) u := by
  intro m owner b frames
  obtain ⟨n, here⟩ := within m owner (some a) (⟨b, k⟩ :: frames)
  refine ⟨1 + (n + 1), ?_⟩
  rw [turn_add, turn_add]
  show turn body 1 (turn body n
    { m with focus := some ⟨owner, some a, body a, ⟨b, k⟩ :: frames⟩, world := w }) = _
  rw [here]
  cases x <;> rfl

/-- A machine goes through what a routine unfolds to, if it carries out each activity that the
routine asks for. -/
theorem carries_of_unfolds {r : Routine Value} {w v : World} {l : List Exchange} {o : Outcome}
    (unfolds : r.Unfolds w l o v) (each : ∀ x ∈ l, ∃ a, x.request = .call a ∧
      Carries body (body a) x.before (ofOutcome x.outcome) x.after) :
    Carries body r w (ofOutcome o) v := by
  induction unfolds with
  | done a w => exact .refl _ w
  | fail e w => exact .refl _ w
  | read _ ih => exact (carries_read _ _).trans (ih each)
  | write _ ih => exact (carries_write _ _ _).trans (ih each)
  | call _ ih =>
    obtain ⟨_, ⟨⟩, within⟩ := each _ List.mem_cons_self
    exact (carries_call within).trans (ih fun x mem => each x (List.mem_cons_of_mem _ mem))
  | pause _ _ =>
    obtain ⟨_, ⟨⟩, _⟩ := each _ List.mem_cons_self
  | await _ _ =>
    obtain ⟨_, ⟨⟩, _⟩ := each _ List.mem_cons_self

end Machine
end AsyncImport
