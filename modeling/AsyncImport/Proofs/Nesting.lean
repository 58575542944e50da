import AsyncImport.Proofs.Safety
import AsyncImport.Proofs.Transcripts

/-!
# Activities within activities

Code that never waits leads from one activity to others, and these lead to more. A `Deed` is such an
activity with all that it consisted of. A `Staff` says whose code is followed and what is left to a
host; `Staff.Plays` are the deeds that can come of it. What comes to be asked at all is `Staff.Reaches`:
if all of that is answered, a routine comes to its end (`exists_runs`).
-/

namespace AsyncImport

/-- An activity that was carried out, with the activities that it led to. -/
inductive Deed where
  | mk (activity : Activity) (before : World) (outcome : Outcome) (after : World) (parts : List Deed)

namespace Deed

def activity : Deed → Activity
  | .mk a _ _ _ _ => a

def before : Deed → World
  | .mk _ w _ _ _ => w

def outcome : Deed → Outcome
  | .mk _ _ o _ _ => o

def after : Deed → World
  | .mk _ _ _ v _ => v

def parts : Deed → List Deed
  | .mk _ _ _ _ ds => ds

def exchange (d : Deed) : Exchange := ⟨.call d.activity, d.before, d.outcome, d.after⟩

/-- A deed is part of another, or of one of its parts. -/
inductive Inside : Deed → Deed → Prop
  | part {c d : Deed} (mem : c ∈ d.parts) : Inside c d
  | deeper {b c d : Deed} (mem : c ∈ d.parts) (inside : Inside b c) : Inside b d

mutual

def all : Deed → List Deed
  | .mk a w o v ds => .mk a w o v ds :: allOf ds

def allOf : List Deed → List Deed
  | [] => []
  | d :: ds => d.all ++ allOf ds

end

theorem all_eq (d : Deed) : d.all = d :: allOf d.parts := by
  cases d
  rfl

theorem mem_allOf {b c : Deed} {ds : List Deed} (mem : c ∈ ds) (within : b ∈ c.all) : b ∈ allOf ds := by
  induction ds with
  | nil => cases mem
  | cons d ds ih =>
    rcases List.mem_cons.mp mem with rfl | later
    · exact List.mem_append_left _ within
    · exact List.mem_append_right _ (ih later)

theorem Inside.mem_all {b d : Deed} (inside : b.Inside d) : b ∈ d.all := by
  induction inside with
  | part mem =>
    rw [all_eq]
    exact List.mem_cons_of_mem _ (mem_allOf mem (by rw [all_eq]; exact List.mem_cons_self))
  | deeper mem _ ih =>
    rw [all_eq]
    exact List.mem_cons_of_mem _ (mem_allOf mem ih)

theorem Inside.of_part {b c d : Deed} (mem : c ∈ d.parts) (within : b = c ∨ b.Inside c) :
    b.Inside d := within.elim (fun is => is ▸ .part mem) (.deeper mem)

end Deed

namespace Routine

theorem within_forM {B : Bounds} {α : Type} {xs : List α} {f : α → Routine PUnit}
    (each : ∀ x ∈ xs, ∀ w, B.granted w → (f x).Within B w) {w : World} (granted : B.granted w) :
    (xs.forM f).Within B w := by
  induction xs generalizing w with
  | nil => exact trivial
  | cons x xs ih =>
    exact within_bind granted (each x List.mem_cons_self w granted) fun _ _ later =>
      ih (fun y mem => each y (List.mem_cons_of_mem _ mem)) later

end Routine

/-- Who carries out what: some activities mean code that is followed, the others are left to a host. -/
structure Staff where
  body : Meaning
  own : Activity → Prop
  host : Exchange → Prop

namespace Staff

open Routine

variable {P : Staff} {α β : Type} {u v w : World} {ds : List Deed} {l : List Exchange}
  {o : Except (Ref .failure) α}

/-- The requests of a transcript, of which some were carried out by deeds and the others by the host. -/
inductive Shares (P : Staff) : List Exchange → List Deed → Prop
  | nil : Shares P [] []
  | own {d : Deed} {l ds} (is : P.own d.activity) (rest : Shares P l ds) :
      Shares P (d.exchange :: l) (d :: ds)
  | host {a : Activity} {w : World} {x : Outcome} {u : World} {l ds} (other : ¬ P.own a)
      (answers : P.host ⟨.call a, w, x, u⟩) (rest : Shares P l ds) :
      Shares P (⟨.call a, w, x, u⟩ :: l) ds

def Runs (P : Staff) (r : Routine α) (w : World) (ds : List Deed) (o : Except (Ref .failure) α)
    (v : World) : Prop :=
  ∃ l, r.Unfolds w l o v ∧ P.Shares l ds

inductive Plays (P : Staff) : Deed → Prop
  | intro {a w o v ds} (runs : P.Runs (P.body a) w ds o v) (each : ∀ d ∈ ds, Plays P d) :
      Plays P (.mk a w o v ds)

theorem Plays.runs {d : Deed} (plays : P.Plays d) :
    P.Runs (P.body d.activity) d.before d.parts d.outcome d.after := by
  cases plays with
  | intro runs _ => exact runs

theorem Plays.part {c d : Deed} (plays : P.Plays d) (mem : c ∈ d.parts) : P.Plays c := by
  cases plays with
  | intro _ each => exact each c mem

/-! ## Transcripts in parts -/

theorem shares_append {l₁ l₂ : List Exchange} :
    P.Shares (l₁ ++ l₂) ds ↔ ∃ ds₁ ds₂, ds = ds₁ ++ ds₂ ∧ P.Shares l₁ ds₁ ∧ P.Shares l₂ ds₂ := by
  constructor
  · intro shares
    induction l₁ generalizing ds with
    | nil => exact ⟨[], ds, rfl, .nil, shares⟩
    | cons x l₁ ih =>
      cases shares with
      | own is rest =>
        obtain ⟨ds₁, ds₂, rfl, first, next⟩ := ih rest
        exact ⟨_ :: ds₁, ds₂, rfl, .own is first, next⟩
      | host other answers rest =>
        obtain ⟨ds₁, ds₂, rfl, first, next⟩ := ih rest
        exact ⟨ds₁, ds₂, rfl, .host other answers first, next⟩
  · rintro ⟨ds₁, ds₂, rfl, first, next⟩
    induction first with
    | nil => exact next
    | own is _ ih => exact .own is ih
    | host other answers _ ih => exact .host other answers ih

@[simp] theorem shares_nil : P.Shares [] ds ↔ ds = [] := by
  constructor
  · rintro ⟨⟩
    rfl
  · rintro rfl
    exact .nil

@[simp] theorem runs_done {a : α} : P.Runs (.done a) w ds o v ↔ ds = [] ∧ o = .ok a ∧ v = w := by
  simp [Runs, and_comm, and_assoc]

@[simp] theorem runs_fail {e : Ref .failure} :
    P.Runs (.fail e : Routine α) w ds o v ↔ ds = [] ∧ o = .error e ∧ v = w := by
  simp [Runs, and_comm, and_assoc]

@[simp] theorem runs_read {k : World → Routine α} :
    P.Runs (.read k) w ds o v ↔ P.Runs (k w) w ds o v := by
  simp [Runs]

@[simp] theorem runs_write {k : Routine α} : P.Runs (.write u k) w ds o v ↔ P.Runs k u ds o v := by
  simp [Runs]

theorem runs_edit {e : Edit α} : P.Runs (edit e) w ds o v ↔ ds = [] ∧ e.after w = (o, v) := by
  constructor
  · rintro ⟨l, unfolds, shares⟩
    obtain ⟨rfl, ends⟩ := unfolds_edit.mp unfolds
    exact ⟨shares_nil.mp shares, ends⟩
  · rintro ⟨rfl, ends⟩
    exact ⟨[], unfolds_edit.mpr ⟨rfl, ends⟩, .nil⟩

theorem runs_ofOutcome {x y : Outcome} : P.Runs (ofOutcome x) w ds y v ↔ ds = [] ∧ y = x ∧ v = w := by
  cases x <;> simp [ofOutcome]

theorem runs_andThen {x : Routine β} {f : β → Routine α} {g : Ref .failure → Routine α} :
    P.Runs (x.andThen f g) w ds o v ↔ ∃ ds₁ ds₂ p u, ds = ds₁ ++ ds₂ ∧ P.Runs x w ds₁ p u ∧
      P.Runs (match p with
        | .ok b => f b
        | .error e => g e) u ds₂ o v := by
  constructor
  · rintro ⟨l, unfolds, shares⟩
    obtain ⟨l₁, l₂, p, u, rfl, first, next⟩ := unfolds_andThen.mp unfolds
    obtain ⟨ds₁, ds₂, rfl, one, two⟩ := shares_append.mp shares
    exact ⟨ds₁, ds₂, p, u, rfl, ⟨l₁, first, one⟩, ⟨l₂, next, two⟩⟩
  · rintro ⟨ds₁, ds₂, p, u, rfl, ⟨l₁, first, one⟩, ⟨l₂, next, two⟩⟩
    exact ⟨l₁ ++ l₂, unfolds_andThen.mpr ⟨l₁, l₂, p, u, rfl, first, next⟩,
      shares_append.mpr ⟨ds₁, ds₂, rfl, one, two⟩⟩

theorem runs_bind {x : Routine β} {f : β → Routine α} :
    P.Runs (x.bind f) w ds o v ↔
      (∃ b ds₁ ds₂ u, ds = ds₁ ++ ds₂ ∧ P.Runs x w ds₁ (.ok b) u ∧ P.Runs (f b) u ds₂ o v) ∨
      ∃ e, o = .error e ∧ P.Runs x w ds (.error e) v := by
  rw [← andThen_fail, runs_andThen]
  constructor
  · rintro ⟨ds₁, ds₂, e | b, u, rfl, first, next⟩
    · obtain ⟨rfl, rfl, rfl⟩ := runs_fail.mp next
      exact .inr ⟨e, rfl, by simpa using first⟩
    · exact .inl ⟨b, ds₁, ds₂, u, rfl, first, next⟩
  · rintro (⟨b, ds₁, ds₂, u, rfl, first, next⟩ | ⟨e, rfl, first⟩)
    · exact ⟨ds₁, ds₂, .ok b, u, rfl, first, next⟩
    · exact ⟨ds, [], .error e, v, by simp, first, by simp⟩

theorem runs_doing {e : Edit β} {f : β → Routine α} {b : β} (run : e w = (.ok b, u)) :
    P.Runs ((edit e).bind f) w ds o v ↔ P.Runs (f b) u ds o v := by
  simp only [Runs, unfolds_doing run]

theorem runs_call {a : Activity} {k : Outcome → Routine α} : P.Runs (.call a k) w ds o v ↔
    (∃ d es, ds = d :: es ∧ P.own a ∧ d.activity = a ∧ d.before = w ∧
      P.Runs (k d.outcome) d.after es o v) ∨
    ¬ P.own a ∧ ∃ x u, P.host ⟨.call a, w, x, u⟩ ∧ P.Runs (k x) u ds o v := by
  constructor
  · rintro ⟨l, unfolds, shares⟩
    obtain ⟨x, u, m, rfl, later⟩ := unfolds_call.mp unfolds
    generalize begins : (⟨.call a, w, x, u⟩ : Exchange) :: m = l at shares
    cases shares with
    | nil => cases begins
    | own is rest =>
      obtain ⟨same, rfl⟩ := List.cons.inj begins
      cases same
      exact .inl ⟨_, _, rfl, is, rfl, rfl, _, later, rest⟩
    | host other answers rest =>
      obtain ⟨same, rfl⟩ := List.cons.inj begins
      cases same
      exact .inr ⟨other, x, u, answers, _, later, rest⟩
  · rintro (⟨d, es, rfl, is, rfl, rfl, l, later, rest⟩ | ⟨other, x, u, answers, l, later, rest⟩)
    · exact ⟨_, .call later, .own is rest⟩
    · exact ⟨_, .call later, .host other answers rest⟩

theorem runs_perform {a : Activity} {x : Outcome} (is : P.own a) :
    P.Runs (perform a) w ds x v ↔
      ∃ d, ds = [d] ∧ d.activity = a ∧ d.before = w ∧ d.outcome = x ∧ d.after = v := by
  unfold perform
  rw [runs_call]
  constructor
  · rintro (⟨d, es, rfl, -, rfl, rfl, ends⟩ | ⟨other, -⟩)
    · obtain ⟨rfl, rfl, rfl⟩ := runs_ofOutcome.mp ends
      exact ⟨d, rfl, rfl, rfl, rfl, rfl⟩
    · exact absurd is other
  · rintro ⟨d, rfl, rfl, rfl, rfl, rfl⟩
    exact .inl ⟨d, [], rfl, is, rfl, rfl, runs_ofOutcome.mpr ⟨rfl, rfl, rfl⟩⟩

theorem runs_perform_other {a : Activity} {x : Outcome} (other : ¬ P.own a) :
    P.Runs (perform a) w ds x v ↔ ds = [] ∧ P.host ⟨.call a, w, x, v⟩ := by
  unfold perform
  rw [runs_call]
  constructor
  · rintro (⟨_, _, _, is, -⟩ | ⟨-, y, u, answers, ends⟩)
    · exact absurd is other
    · obtain ⟨rfl, rfl, rfl⟩ := runs_ofOutcome.mp ends
      exact ⟨rfl, answers⟩
  · rintro ⟨rfl, answers⟩
    exact .inr ⟨other, x, v, answers, runs_ofOutcome.mpr ⟨rfl, rfl, rfl⟩⟩

theorem each_of_runs {B : Bounds} (granted : ∀ w, B.granted w) {r : Routine α}
    (runs : P.Runs r w ds o v) (within : r.Within B w) :
    ∀ d ∈ ds, P.own d.activity ∧ B.calls d.activity := by
  obtain ⟨l, unfolds, shares⟩ := runs
  induction unfolds generalizing ds with
  | done | fail => simp [shares_nil.mp shares]
  | read _ ih => exact ih within shares
  | write _ ih => exact ih (within.2 (granted _)) shares
  | call _ ih =>
    cases shares with
    | own is rest =>
      exact List.forall_mem_cons.mpr ⟨⟨is, within.1⟩, ih (within.2 _ _ (granted _)) rest⟩
    | host other answers rest => exact ih (within.2 _ _ (granted _)) rest
  | pause | await => exact within.elim

/-! ## What becomes of faults -/

def Passes (P : Staff) (S : Activity → Prop) (r : Routine α) : Prop :=
  ∀ ⦃w ds o v⦄, P.Runs r w ds o v → ∀ d ∈ ds, S d.activity → ∀ e, d.outcome = .error e →
    o = .error e ∧ v = d.after

def Blames (P : Staff) (r : Routine α) : Prop :=
  ∀ ⦃w ds e v⦄, P.Runs r w ds (.error e) v → ∃ d ∈ ds, d.outcome = .error e

section

variable {S : Activity → Prop}

theorem passes_bind {x : Routine β} {f : β → Routine α} (first : P.Passes S x)
    (next : ∀ b, P.Passes S (f b)) : P.Passes S (x.bind f) := by
  intro w ds o v runs d mem among e fails
  rcases runs_bind.mp runs with ⟨b, ds₁, ds₂, u, rfl, one, two⟩ | ⟨c, rfl, one⟩
  · rcases List.mem_append.mp mem with here | there
    · cases (first one d here among e fails).1
    · exact next b two d there among e fails
  · obtain ⟨same, last⟩ := first one d mem among e fails
    cases same
    exact ⟨rfl, last⟩

theorem passes_edit (x : Edit α) : P.Passes S (edit x) := by
  intro w ds o v runs
  simp [(runs_edit.mp runs).1]

theorem passes_done (a : α) : P.Passes S (.done a) := by
  intro w ds o v runs
  simp [(runs_done.mp runs).1]

theorem passes_perform (a : Activity) : P.Passes S (perform a) := by
  intro w ds o v runs
  by_cases is : P.own a
  · obtain ⟨c, rfl, -, -, rfl, rfl⟩ := (runs_perform is).mp runs
    simp
  · simp [((runs_perform_other is).mp runs).1]

theorem passes_forM {xs : List β} {f : β → Routine PUnit} (each : ∀ x, P.Passes S (f x)) :
    P.Passes S (xs.forM f) := by
  induction xs with
  | nil => exact passes_done _
  | cons x xs ih => exact passes_bind (each x) fun _ => ih

theorem passes_mapM {xs : List β} {f : β → Routine α} (each : ∀ x, P.Passes S (f x)) :
    P.Passes S (xs.mapM f) := by
  induction xs with
  | nil => exact passes_done _
  | cons x xs ih =>
    rw [List.mapM_cons]
    exact passes_bind (each x) fun _ => passes_bind ih fun _ => passes_done _

theorem passes_within {B : Bounds} (granted : ∀ w, B.granted w) (other : ∀ a, B.calls a → ¬ S a)
    {r : Routine α} (within : ∀ w, r.Within B w) : P.Passes S r := by
  intro w ds o v runs d mem among
  exact absurd among (other _ (each_of_runs granted runs (within w) d mem).2)

theorem blames_bind {x : Routine β} {f : β → Routine α} (first : P.Blames x)
    (next : ∀ b, P.Blames (f b)) : P.Blames (x.bind f) := by
  intro w ds e v runs
  rcases runs_bind.mp runs with ⟨b, ds₁, ds₂, u, rfl, one, two⟩ | ⟨c, same, one⟩
  · obtain ⟨d, mem, fails⟩ := next b two
    exact ⟨d, List.mem_append_right _ mem, fails⟩
  · cases same
    exact first one

theorem blames_done (a : α) : P.Blames (.done a) := by
  intro w ds e v runs
  cases (runs_done.mp runs).2.1

theorem blames_forM {xs : List β} {f : β → Routine PUnit} (each : ∀ x, P.Blames (f x)) :
    P.Blames (xs.forM f) := by
  induction xs with
  | nil => exact blames_done _
  | cons x xs ih => exact blames_bind (each x) fun _ => ih

end

theorem all_of_runs_forM {xs : List β} {f : β → Routine PUnit}
    (runs : P.Runs (xs.forM f) w ds (.ok ⟨⟩) v) : ∀ x ∈ xs, ∃ u es b y, (∀ d ∈ es, d ∈ ds) ∧
      P.Runs (f x) u es (.ok b) y := by
  induction xs generalizing w ds with
  | nil => simp
  | cons x xs ih =>
    rcases runs_bind.mp runs with ⟨b, ds₁, ds₂, u, rfl, one, two⟩ | ⟨e, never, -⟩
    · refine List.forall_mem_cons.mpr ⟨⟨w, ds₁, b, u, by simp +contextual, one⟩, fun y mem => ?_⟩
      obtain ⟨u, es, b, y, among, rest⟩ := ih two y mem
      exact ⟨u, es, b, y, fun d mem => List.mem_append_right _ (among d mem), rest⟩
    · cases never

theorem all_of_runs_mapM {xs : List β} {f : β → Routine α} {ys : List α}
    (runs : P.Runs (xs.mapM f) w ds (.ok ys) v) : ∀ x ∈ xs, ∃ u es b y, (∀ d ∈ es, d ∈ ds) ∧
      P.Runs (f x) u es (.ok b) y := by
  induction xs generalizing w ds ys v with
  | nil => simp
  | cons x xs ih =>
    rw [List.mapM_cons] at runs
    rcases runs_bind.mp runs with ⟨b, ds₁, ds₂, u, rfl, one, two⟩ | ⟨e, never, -⟩
    · refine List.forall_mem_cons.mpr ⟨⟨w, ds₁, b, u, by simp +contextual, one⟩, fun y mem => ?_⟩
      rcases runs_bind.mp two with ⟨zs, ds₃, ds₄, u, rfl, rest, -⟩ | ⟨e, never, -⟩
      · obtain ⟨u, es, b, y, among, rest⟩ := ih rest y mem
        exact ⟨u, es, b, y, fun d mem => by simp [among d mem], rest⟩
      · cases never
    · cases never

/-! ## Worlds along a run -/

inductive Strung (G : World → World → Prop) : World → List Deed → World → Prop
  | nil {w v : World} (gap : G w v) : Strung G w [] v
  | cons {w v : World} {d ds} (gap : G w d.before) (rest : Strung G d.after ds v) :
      Strung G w (d :: ds) v

theorem Strung.mono {G L : World → World → Prop} (strung : Strung G w ds v)
    (weaker : ∀ {x y}, G x y → L x y) : Strung L w ds v := by
  induction strung with
  | nil gap => exact .nil (weaker gap)
  | cons gap _ ih => exact .cons (weaker gap) ih

section

variable {G : World → World → Prop} (refl : ∀ w, G w w)
  (trans : ∀ {x y z}, G x y → G y z → G x z)
include trans

theorem Strung.after (gap : G u w) (strung : Strung G w ds v) : Strung G u ds v := by
  cases strung with
  | nil next => exact .nil (trans gap next)
  | cons next rest => exact .cons (trans gap next) rest

include refl

/-- A routine that keeps to its bounds changes the world by its deeds, and as its bounds allow. -/
theorem strung_of_runs {B : Bounds} (granted : ∀ w, B.granted w)
    (writes : ∀ {u v}, B.writes u v → G u v)
    (host : ∀ {a u x v}, B.calls a → ¬ P.own a → P.host ⟨.call a, u, x, v⟩ → G u v)
    {r : Routine α} (runs : P.Runs r w ds o v) (within : r.Within B w) : Strung G w ds v := by
  obtain ⟨l, unfolds, shares⟩ := runs
  induction unfolds generalizing ds with
  | done _ w | fail _ w =>
    rw [shares_nil.mp shares]
    exact .nil (refl w)
  | read _ ih => exact ih within shares
  | write _ ih => exact (ih (within.2 (granted _)) shares).after trans (writes within.1)
  | call _ ih =>
    cases shares with
    | own is rest => exact .cons (refl _) (ih (within.2 _ _ (granted _)) rest)
    | host other answers rest =>
      exact (ih (within.2 _ _ (granted _)) rest).after trans (host within.1 other answers)
  | pause | await => exact within.elim

end

/-- What holds at first and lasts through deeds and changes holds at every deed and in the end. -/
theorem Strung.holds {G : World → World → Prop} {J : World → Prop} (strung : Strung G w ds v)
    (gap : ∀ {u v}, J u → G u v → J v) (each : ∀ d ∈ ds, J d.before → J d.after) (holds : J w) :
    J v ∧ ∀ d ∈ ds, J d.before := by
  induction strung with
  | nil change => exact ⟨gap holds change, by simp⟩
  | cons change _ ih =>
    have here := gap holds change
    obtain ⟨last, rest⟩ :=
      ih (fun d mem => each d (List.mem_cons_of_mem _ mem)) (each _ List.mem_cons_self here)
    exact ⟨last, List.forall_mem_cons.mpr ⟨here, rest⟩⟩

/-! ## Code that comes first -/

inductive Leads : Routine α → World → Routine α → World → Prop
  | refl (r : Routine α) (w : World) : Leads r w r w
  | read {k : World → Routine α} {w s u} (later : Leads (k w) w s u) : Leads (.read k) w s u
  | write {k : Routine α} {w x s u} (later : Leads k x s u) : Leads (.write x k) w s u

theorem Leads.trans {q r s : Routine α} (first : Leads q u r w) (next : Leads r w s v) :
    Leads q u s v := by
  induction first with
  | refl => exact next
  | read _ ih => exact .read (ih next)
  | write _ ih => exact .write (ih next)

theorem Leads.bind {r s : Routine β} (leads : Leads r w s u) (f : β → Routine α) :
    Leads (r.bind f) w (s.bind f) u := by
  induction leads with
  | refl => exact .refl _ _
  | read _ ih => exact .read ih
  | write _ ih => exact .write ih

theorem leads_edit {e : Edit α} (ends : e.after w = (o, u)) : Leads (edit e) w (ofResult o) u := by
  refine .read ?_
  rw [ends]
  exact .write (.refl _ _)

theorem leads_doing {e : Edit β} {f : β → Routine α} {b : β} (run : e w = (.ok b, u)) :
    Leads ((edit e).bind f) w (f b) u := (leads_edit (Edit.after_ok run)).bind f

theorem leads_failing {e : Edit β} {f : β → Routine α} {c : Fault} (run : e w = (.error c, u)) :
    Leads ((edit e).bind f) w (.fail (u.heap.fresh .failure)) (u.alloc .failure c) :=
  (leads_edit (Edit.after_error run)).bind f

theorem Leads.runs {r s : Routine α} (leads : Leads r w s u) :
    P.Runs r w ds o v ↔ P.Runs s u ds o v := by
  induction leads with
  | refl => exact Iff.rfl
  | read _ ih => exact runs_read.trans ih
  | write _ ih => exact runs_write.trans ih

/-! ## What comes to be asked -/

inductive Reaches (P : Staff) : Routine Value → World → Activity → World → Prop
  | asks {a k w} (other : ¬ P.own a) : Reaches P (.call a k) w a w
  | read {k : World → Routine Value} {w b u} (later : Reaches P (k w) w b u) :
      Reaches P (.read k) w b u
  | write {k : Routine Value} {w x b u} (later : Reaches P k x b u) : Reaches P (.write x k) w b u
  | inside {a k w b u} (is : P.own a) (within : Reaches P (P.body a) w b u) :
      Reaches P (.call a k) w b u
  | behind {d : Deed} {k b u} (is : P.own d.activity) (plays : P.Plays d)
      (later : Reaches P (k d.outcome) d.after b u) : Reaches P (.call d.activity k) d.before b u
  | past {a k w x v b u} (other : ¬ P.own a) (answers : P.host ⟨.call a, w, x, v⟩)
      (later : Reaches P (k x) v b u) : Reaches P (.call a k) w b u

def Answers (P : Staff) (r : Routine Value) (w : World) : Prop :=
  ∀ a u, P.Reaches r w a u → ∃ x v, P.host ⟨.call a, u, x, v⟩

theorem Answers.leads {r s : Routine Value} (answers : P.Answers r w) (leads : Leads r w s u) :
    P.Answers s u := by
  induction leads with
  | refl => exact answers
  | read _ ih => exact ih fun a x reaches => answers a x (.read reaches)
  | write _ ih => exact ih fun a x reaches => answers a x (.write reaches)

/-- A routine comes to its end if its own activities do and the host answers. -/
theorem exists_runs {B : Bounds} {J : World → Prop} (granted : ∀ w, B.granted w)
    (writes : ∀ {u v}, J u → B.writes u v → J v)
    (host : ∀ {a u x v}, J u → B.calls a → ¬ P.own a → P.host ⟨.call a, u, x, v⟩ → J v)
    (own : ∀ {a u}, P.own a → B.calls a → J u → P.Answers (P.body a) u →
      ∃ d, d.activity = a ∧ d.before = u ∧ P.Plays d ∧ J d.after) {r : Routine Value} :
    ∀ {w : World}, P.Answers r w → r.Within B w → J w →
      ∃ ds o v, P.Runs r w ds o v ∧ ∀ d ∈ ds, P.Plays d := by
  induction r with
  | done a => exact fun {w} _ _ _ => ⟨[], .ok a, w, by simp, by simp⟩
  | fail e => exact fun {w} _ _ _ => ⟨[], .error e, w, by simp, by simp⟩
  | read k ih =>
    intro w answers within holds
    obtain ⟨ds, o, v, runs, plays⟩ := ih w (answers.leads (.read (.refl _ _))) within holds
    exact ⟨ds, o, v, runs_read.mpr runs, plays⟩
  | write x k ih =>
    intro w answers within holds
    obtain ⟨ds, o, v, runs, plays⟩ := ih (answers.leads (.write (.refl _ _)))
      (within.2 (granted x)) (writes holds within.1)
    exact ⟨ds, o, v, runs_write.mpr runs, plays⟩
  | call a k ih =>
    intro w answers within holds
    by_cases is : P.own a
    · obtain ⟨d, rfl, rfl, plays, here⟩ :=
        own is within.1 holds fun b u reaches => answers b u (.inside is reaches)
      obtain ⟨ds, o, v, runs, each⟩ :=
        ih d.outcome (fun b u reaches => answers b u (.behind is plays reaches))
          (within.2 _ _ (granted _)) here
      exact ⟨d :: ds, o, v, runs_call.mpr (.inl ⟨d, ds, rfl, is, rfl, rfl, runs⟩),
        List.forall_mem_cons.mpr ⟨plays, each⟩⟩
    · obtain ⟨x, u, answered⟩ := answers a w (.asks is)
      obtain ⟨ds, o, v, runs, each⟩ :=
        ih x (fun b y reaches => answers b y (.past is answered reaches))
          (within.2 _ _ (granted _)) (host holds within.1 is answered)
      exact ⟨ds, o, v, runs_call.mpr (.inr ⟨is, x, u, answered, runs⟩), each⟩
  | pause k => exact fun _ within => within.elim
  | await f k => exact fun _ within => within.elim

/-! ## Deeds to order -/

def enact (act : Activity → World → Option Deed) :
    Routine α → World → Option (List Deed × Except (Ref .failure) α × World)
  | .done a, w => some ([], .ok a, w)
  | .fail e, w => some ([], .error e, w)
  | .read k, w => enact act (k w) w
  | .write u k, _ => enact act k u
  | .call a k, w => match act a w with
    | some d => (enact act (k d.outcome) d.after).map fun x => (d :: x.1, x.2)
    | none => none
  | .pause _, _ | .await _ _, _ => none

def act (P : Staff) (owns : Activity → Bool) : Nat → Activity → World → Option Deed
  | 0, _, _ => none
  | n + 1, a, w =>
    if owns a then (enact (P.act owns n) (P.body a) w).map fun x => .mk a w x.2.1 x.2.2 x.1 else none

theorem runs_enact {act : Activity → World → Option Deed}
    (acts : ∀ {a w d}, act a w = some d → P.own a ∧ d.activity = a ∧ d.before = w ∧ P.Plays d)
    {r : Routine α} (run : enact act r w = some (ds, o, v)) : P.Runs r w ds o v ∧ ∀ d ∈ ds, P.Plays d := by
  induction r generalizing w ds with
  | done a =>
    cases run
    exact ⟨runs_done.mpr ⟨rfl, rfl, rfl⟩, by simp⟩
  | fail e =>
    cases run
    exact ⟨runs_fail.mpr ⟨rfl, rfl, rfl⟩, by simp⟩
  | read k ih => exact (ih w run).imp_left runs_read.mpr
  | write u k ih => exact (ih run).imp_left runs_write.mpr
  | call a k ih =>
    unfold enact at run
    split at run
    · next d acted =>
      obtain ⟨⟨es, ends⟩, rest, is⟩ := Option.map_eq_some_iff.mp run
      cases is
      obtain ⟨is, rfl, rfl, plays⟩ := acts acted
      obtain ⟨runs, each⟩ := ih _ rest
      exact ⟨runs_call.mpr (.inl ⟨d, es, rfl, is, rfl, rfl, runs⟩), List.forall_mem_cons.mpr ⟨plays, each⟩⟩
    · cases run
  | pause | await => cases run

theorem plays_act {owns : Activity → Bool} (sound : ∀ {a}, owns a = true → P.own a) (n : Nat) :
    ∀ {a w d}, P.act owns n a w = some d → P.own a ∧ d.activity = a ∧ d.before = w ∧ P.Plays d := by
  induction n with
  | zero => exact nofun
  | succ n ih =>
    intro a w d acted
    unfold act at acted
    split at acted
    · next own =>
      obtain ⟨⟨ds, o, v⟩, run, rfl⟩ := Option.map_eq_some_iff.mp acted
      obtain ⟨runs, each⟩ := runs_enact ih run
      exact ⟨sound own, rfl, rfl, .intro runs each⟩
    · cases acted

/-! ## Deeds of a machine -/

/-- A machine does what is played if it carries out what is left to the host. -/
theorem carries_of_plays (each : ∀ x, P.host x → ∃ a, x.request = .call a ∧
      Machine.Carries P.body (P.body a) x.before (ofOutcome x.outcome) x.after) {d : Deed}
    (plays : P.Plays d) :
    Machine.Carries P.body (P.body d.activity) d.before (ofOutcome d.outcome) d.after := by
  induction plays with
  | intro runs _ ih =>
    obtain ⟨l, unfolds, shares⟩ := runs
    refine Machine.carries_of_unfolds unfolds fun x mem => ?_
    clear unfolds
    induction shares with
    | nil => cases mem
    | @own d l ds is _ rest =>
      rcases List.mem_cons.mp mem with rfl | later
      · exact ⟨d.activity, rfl, ih d List.mem_cons_self⟩
      · exact rest (fun c among => ‹∀ d ∈ _, P.Plays d› c (List.mem_cons_of_mem _ among))
          (fun c among => ih c (List.mem_cons_of_mem _ among)) later
    | host other answers _ rest =>
      rcases List.mem_cons.mp mem with rfl | later
      · exact each _ answers
      · exact rest ‹_› ih later

end Staff
end AsyncImport
