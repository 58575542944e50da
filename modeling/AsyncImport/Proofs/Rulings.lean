import AsyncImport.Proofs.Declarations
import AsyncImport.Proofs.Transcripts
import AsyncImport.Session.Members
import Mathlib.Logic.Relation

/-!
# Calls on ignore rules

Ignore rules keep a matcher for each stage, which is made when it is first needed, grows, and is thrown
away when the stage is cleared. What they stand for is one set of patterns for each stage: those of the
calls that were accepted since the stage was last cleared. `Ruled` tells what a sequence of calls is, and
`agrees_called` that each call does to the rules what it does to these sets.
-/

namespace AsyncImport

open Edit Routine

namespace Matcher

theorem mem_addOne {m : Matcher} {p q : String} :
    q ∈ (m.addOne p).patterns ↔ q ∈ m.patterns ∨ q = p := by
  unfold addOne
  split
  · next known => exact ⟨.inl, fun either => either.elim id fun same => same ▸ known⟩
  · simp

theorem mem_add {m : Matcher} {ps : List String} {q : String} :
    q ∈ (m.add ps).patterns ↔ q ∈ m.patterns ∨ q ∈ ps := by
  unfold add
  induction ps generalizing m with
  | nil => simp
  | cons p ps ih => rw [List.foldl_cons, ih, mem_addOne, List.mem_cons, or_assoc]

@[simp] theorem compare_add (m : Matcher) (ps : List String) : (m.add ps).compare = m.compare := by
  unfold add
  induction ps generalizing m with
  | nil => rfl
  | cons p ps ih =>
    rw [List.foldl_cons, ih]
    unfold addOne
    split <;> rfl

end Matcher

namespace IgnoreRules

variable {h k : Hook} {c : IgnoreRules}

@[simp] theorem matcher_touch : (c.touch h).matcher k = c.matcher k := by
  unfold touch matcher matcher?
  rw [Assoc.get?_insert]
  split
  · next same => exact same ▸ rfl
  · rfl

theorem matcher_add {ps : List String} :
    (c.add h ps).matcher k = if k = h then (c.matcher h).add ps else c.matcher k := by
  unfold add
  rw [matcher, matcher?, Assoc.get?_insert]
  split <;> rfl

theorem matcher_clear :
    (c.clear h).matcher k = if k = h then { compare := c.compare } else c.matcher k := by
  unfold clear
  rw [matcher, matcher?, Assoc.get?_erase]
  split <;> rfl

theorem ignores_eq (name : String) : c.ignores (.str name) k = (c.matcher k).accepts (.str name) := by
  unfold ignores matcher
  cases c.matcher? k <;> rfl

/-! ## Calls on ignore rules -/

inductive Call where
  | add (stage patterns : Value)
  /-- A manager is told to ignore. -/
  | ignore (manager : Ref .manager) (stage patterns : Value)
  | clear (stage : Value)
  deriving DecidableEq

namespace Call

def run (r : Ref .ignoreRules) : Call → Routine Value
  | .add stage patterns =>
    callMember (.obj .ignoreRules r) ⟨"add", some .add⟩ ⟨[stage, patterns], []⟩
  | .ignore m stage patterns =>
    callMember (.obj .manager m) ⟨"ignore", some .ignore⟩ ⟨[stage, patterns], []⟩
  | .clear stage => callMember (.obj .ignoreRules r) ⟨"clear", some .clear⟩ ⟨[stage], []⟩

def Sound (r : Ref .ignoreRules) (h : Heap) : Call → Prop
  | .ignore m _ _ => (h.get (h.get m).rules).ignore = r
  | _ => True

def patterns (h : Heap) : Call → List String
  | .add _ ps | .ignore _ _ ps => (h.patterns? ps).getD []
  | .clear _ => []

def edit (r : Ref .ignoreRules) : Call → Edit Unit
  | .add stage ps | .ignore _ stage ps => addFor r stage ps
  | .clear stage => clearFor r stage

end Call

/-- A call, the patterns that it listed when it was made, and whether it was accepted. -/
structure Ruling where
  call : Call
  patterns : List String
  accepted : Bool
  deriving DecidableEq

namespace Ruling

def isAdd (s : Ruling) : Bool :=
  match s.call with
  | .clear _ => false
  | _ => true

def concerns (s : Ruling) (k : Hook) : Bool :=
  match s.call with
  | .add stage _ | .ignore _ stage _ => Hook.ofValue? stage = some k
  | .clear stage => stage = .none || Hook.ofValue? stage = some k

def Adds (s : Ruling) (k : Hook) : Prop := s.isAdd ∧ s.accepted ∧ s.concerns k

def Clears (s : Ruling) (k : Hook) : Prop := s.isAdd = false ∧ s.accepted ∧ s.concerns k

instance (s : Ruling) (k : Hook) : Decidable (s.Adds k) :=
  inferInstanceAs (Decidable (_ ∧ _ ∧ _))

instance (s : Ruling) (k : Hook) : Decidable (s.Clears k) :=
  inferInstanceAs (Decidable (_ ∧ _ ∧ _))

end Ruling

/-- A pattern belongs to an accepted call for a stage that was not cleared since. -/
def Standing (k : Hook) (ss : List Ruling) (p : String) : Prop :=
  ∃ past s later, ss = past ++ s :: later ∧ s.Adds k ∧ p ∈ s.patterns ∧ ∀ t ∈ later, ¬ t.Clears k

def entriesOf (h : Heap) (settings : Value) : List (Value × Value) :=
  match settings with
  | .obj .settings s => ((h.dict? (h.get s).ignore).map Dict.items).getD []
  | _ => []

def given (h : Heap) (settings : Value) : List Ruling :=
  (entriesOf h settings).map fun e => ⟨.add e.1 e.2, (h.patterns? e.2).getD [], true⟩

/-- The calls on ignore rules since they were made, by themselves or with a manager that has entries in
its settings. Between the calls anything may happen that leaves the rules as they are. -/
inductive Ruled (r : Ref .ignoreRules) : Value → List Ruling → World → Prop
  | made {compare : Value} {w v : World}
      (run : Edit.create .ignoreRules { compare := compare } w = (.ok r, v)) : Ruled r compare [] v
  | managed {o : Manager.Options} {m : Ref .manager} {w v : World}
      (run : Manager.create o w = (.ok m, v))
      (own : (v.heap.get (v.heap.get m).rules).ignore = r) :
      Ruled r (.library .globMatch) (given w.heap o.settings) v
  | meanwhile {compare : Value} {ss : List Ruling} {w v : World} (before : Ruled r compare ss w)
      (live : v.heap.Live r) (same : v.heap.get r = w.heap.get r) : Ruled r compare ss v
  | called {compare : Value} {ss : List Ruling} {w v : World} {l : List Exchange} {o : Outcome}
      (before : Ruled r compare ss w) (c : Call) (sound : c.Sound r w.heap)
      (unfolds : (c.run r).Unfolds w l o v) :
      Ruled r compare (ss ++ [⟨c, c.patterns w.heap, o.isOk⟩]) v

/-! ## Patterns that stand -/

section

variable {ss ts : List Ruling} {s t : Ruling} {p : String}

theorem standing_append : Standing k (ss ++ ts) p ↔
    Standing k ts p ∨ Standing k ss p ∧ ∀ t ∈ ts, ¬ t.Clears k := by
  constructor
  · rintro ⟨past, s, later, split, adds, listed, kept⟩
    rcases List.append_eq_append_iff.mp split with ⟨between, rfl, rfl⟩ | ⟨between, rfl, rest⟩
    · exact .inl ⟨between, s, later, rfl, adds, listed, kept⟩
    · cases between with
      | nil => exact .inl ⟨[], s, later, rest.symm, adds, listed, kept⟩
      | cons _ between =>
        obtain ⟨rfl, rfl⟩ := List.cons.inj rest
        obtain ⟨before, after⟩ := List.forall_mem_append.mp kept
        exact .inr ⟨⟨past, s, between, rfl, adds, listed, before⟩, after⟩
  · rintro (⟨past, s, later, rfl, adds, listed, kept⟩ |
      ⟨⟨past, s, later, rfl, adds, listed, kept⟩, after⟩)
    · exact ⟨ss ++ past, s, later, by simp, adds, listed, kept⟩
    · exact ⟨past, s, later ++ ts, by simp, adds, listed, List.forall_mem_append.mpr ⟨kept, after⟩⟩

theorem not_standing_nil : ¬ Standing k [] p := by
  rintro ⟨past, s, later, split, -⟩
  simp at split

theorem standing_one : Standing k [s] p ↔ s.Adds k ∧ p ∈ s.patterns := by
  constructor
  · rintro ⟨past, t, later, split, adds, listed, -⟩
    obtain ⟨rfl, rfl, rfl⟩ : past = [] ∧ s = t ∧ later = [] := by
      cases past <;> simp_all
    exact ⟨adds, listed⟩
  · exact fun ⟨adds, listed⟩ => ⟨[], s, [], rfl, adds, listed, by simp⟩

theorem standing_snoc : Standing k (ss ++ [s]) p ↔
    (s.Adds k ∧ p ∈ s.patterns) ∨ Standing k ss p ∧ ¬ s.Clears k := by
  simp [standing_append, standing_one]

theorem standing_two : Standing k [s, t] p ↔
    (t.Adds k ∧ p ∈ t.patterns) ∨ (s.Adds k ∧ p ∈ s.patterns) ∧ ¬ t.Clears k := by
  have split : [s, t] = [s] ++ [t] := rfl
  rw [split, standing_snoc, standing_one]

/-- What makes no difference to a stage: the order of two additions, whether patterns are listed by one
call or by two, repeating a call, a call that is refused, and a call about other stages. -/
inductive Varies (k : Hook) : List Ruling → List Ruling → Prop
  | order {s t : Ruling} (first : s.isAdd) (next : t.isAdd) : Varies k [s, t] [t, s]
  | grouping {s t u : Ruling} (first : s.Adds k) (next : t.Adds k) (both : u.Adds k)
      (joined : u.patterns = s.patterns ++ t.patterns) : Varies k [s, t] [u]
  | repetition (s : Ruling) : Varies k [s, s] [s]
  | refusal {s : Ruling} (refused : s.accepted = false) : Varies k [s] []
  | elsewhere {s : Ruling} (apart : s.concerns k = false) : Varies k [s] []

/-- Two histories that differ in such ways only. -/
def Amounts (k : Hook) : List Ruling → List Ruling → Prop :=
  Relation.EqvGen fun ss ts => ∃ past as bs later, Varies k as bs ∧
    ss = past ++ as ++ later ∧ ts = past ++ bs ++ later

theorem Ruling.Adds.not_clears (adds : s.Adds k) : ¬ s.Clears k := fun clears => by
  exact absurd clears.1 (by simp [adds.1])

theorem standing_varies {as bs : List Ruling} (varies : Varies k as bs) :
    Standing k as p ↔ Standing k bs p := by
  cases varies with
  | @order s t first next =>
    have keeps {u : Ruling} (add : u.isAdd) : ¬ u.Clears k := by simp [Ruling.Clears, add]
    simp only [standing_two, keeps first, keeps next, not_false_iff, and_true]
    exact or_comm
  | grouping first next both joined =>
    simp only [standing_two, standing_one, first, next, both, next.not_clears, joined,
      List.mem_append, not_false_iff, true_and, and_true]
    exact or_comm
  | repetition s =>
    rw [standing_two, standing_one]
    exact or_iff_left_of_imp And.left
  | refusal refused => simp [standing_one, not_standing_nil, Ruling.Adds, refused]
  | elsewhere apart => simp [standing_one, not_standing_nil, Ruling.Adds, apart]

theorem clears_varies {as bs : List Ruling} (varies : Varies k as bs) :
    (∀ t ∈ as, ¬ t.Clears k) ↔ ∀ t ∈ bs, ¬ t.Clears k := by
  cases varies with
  | order first next => simp [Ruling.Clears, first, next]
  | grouping first next both joined =>
    simp [first.not_clears, next.not_clears, both.not_clears]
  | repetition s => simp
  | refusal refused => simp [Ruling.Clears, refused]
  | elsewhere apart => simp [Ruling.Clears, apart]

theorem standing_amounts (amounts : Amounts k ss ts) : Standing k ss p ↔ Standing k ts p := by
  induction amounts with
  | rel _ _ step =>
    obtain ⟨past, as, bs, later, varies, rfl, rfl⟩ := step
    simp only [standing_append, standing_varies varies, clears_varies varies]
  | refl => exact Iff.rfl
  | symm _ _ _ ih => exact ih.symm
  | trans _ _ _ _ _ first next => exact first.trans next

end

/-! ## Rules and histories -/

structure Holds (c : IgnoreRules) (compare : Value) (ss : List Ruling) : Prop where
  own : c.compare = compare
  matchers : ∀ k, (c.matcher k).compare = compare
  patterns : ∀ k p, p ∈ (c.matcher k).patterns ↔ Standing k ss p

namespace Holds

variable {compare : Value} {ss : List Ruling} {s : Ruling}

theorem new (compare : Value) : Holds { compare := compare } compare [] where
  own := rfl
  matchers _ := rfl
  patterns _ _ := iff_of_false List.not_mem_nil not_standing_nil

theorem touch (holds : Holds c compare ss) (h : Hook) : Holds (c.touch h) compare ss where
  own := holds.own
  matchers k := by rw [matcher_touch, holds.matchers]
  patterns k p := by rw [matcher_touch, holds.patterns]

theorem refused (holds : Holds c compare ss) (refused : s.accepted = false) :
    Holds c compare (ss ++ [s]) where
  own := holds.own
  matchers := holds.matchers
  patterns k p := by
    rw [holds.patterns, standing_snoc]
    simp [Ruling.Adds, Ruling.Clears, refused]

theorem added {ps : List String} (holds : Holds c compare ss) (listed : s.patterns = ps)
    (adds : ∀ k, s.Adds k ↔ k = h) : Holds (c.add h ps) compare (ss ++ [s]) where
  own := holds.own
  matchers k := by
    rw [matcher_add]
    split
    · rw [Matcher.compare_add, holds.matchers]
    · exact holds.matchers k
  patterns k p := by
    have keeps : ¬ s.Clears k := fun clears =>
      absurd clears.1 (by simp [((adds h).mpr rfl).1])
    rw [matcher_add, standing_snoc, adds, listed, and_iff_left keeps]
    split
    · next same => rw [Matcher.mem_add, holds.patterns, same, or_comm, and_iff_right rfl]
    · next other => rw [holds.patterns, or_iff_right fun both => other both.1]

theorem cleared {d : IgnoreRules} (holds : Holds c compare ss) (same : d.compare = c.compare)
    (clears : s.isAdd = false) (matchers : ∀ k, (s.Clears k → d.matcher k = { compare := c.compare }) ∧
      (¬ s.Clears k → d.matcher k = c.matcher k)) : Holds d compare (ss ++ [s]) where
  own := same.trans holds.own
  matchers k := by
    by_cases cleared : s.Clears k
    · rw [(matchers k).1 cleared, holds.own]
    · rw [(matchers k).2 cleared, holds.matchers]
  patterns k p := by
    have idle : ¬ s.Adds k := fun adds => absurd adds.1 (by simp [clears])
    rw [standing_snoc, or_iff_right fun both => idle both.1]
    by_cases cleared : s.Clears k
    · rw [(matchers k).1 cleared]
      simp [cleared]
    · rw [(matchers k).2 cleared, holds.patterns, and_iff_left cleared]

end Holds

section

variable {r : Ref .ignoreRules} {w v : World} {compare : Value} {ss : List Ruling}

theorem addFor_cases (live : w.heap.Live r) (stage ps : Value) :
    (∃ h qs, Hook.ofValue? stage = some h ∧ w.heap.patterns? ps = some qs ∧
      addFor r stage ps w = (.ok (), (w.set r ((w.heap.get r).touch h)).set r
        (((w.heap.get r).touch h).add h qs))) ∨
    ∃ f v, addFor r stage ps w = (.error f, v) ∧
      (v = w ∨ ∃ h, v = w.set r ((w.heap.get r).touch h)) := by
  unfold addFor
  rcases reads_hook stage w with ⟨h, denotes, parsed⟩ | ⟨-, f, parsed⟩
  · have touched : (w.set r ((w.heap.get r).touch h)).heap.get r = (w.heap.get r).touch h := by
      rw [World.get_set r r _ live, if_pos rfl]
    have same : w.heap.SameData (w.set r ((w.heap.get r).touch h)).heap := ⟨rfl, rfl, rfl⟩
    rcases reads_patterns ps (w.set r ((w.heap.get r).touch h)) with
      ⟨qs, listed, read⟩ | ⟨-, f, read⟩
    · refine .inl ⟨h, qs, denotes, (same.patterns?_eq ps).symm.trans listed, ?_⟩
      simp only [run_bind, run_lift, parsed, run_update, read, touched]
    · refine .inr ⟨f, _, ?_, .inr ⟨h, rfl⟩⟩
      simp only [run_bind, run_lift, parsed, run_update, read]
  · exact .inr ⟨f, w, by simp only [run_bind, run_lift, parsed], .inl rfl⟩

theorem clearFor_cases (r : Ref .ignoreRules) (stage : Value) (w : World) :
    (stage = .none ∧ clearFor r stage w = (.ok (), w.set r (w.heap.get r).clearAll)) ∨
    (∃ h, stage ≠ .none ∧ Hook.ofValue? stage = some h ∧
      clearFor r stage w = (.ok (), w.set r ((w.heap.get r).clear h))) ∨
    ∃ f, clearFor r stage w = (.error f, w) := by
  unfold clearFor
  split
  · exact .inl ⟨rfl, rfl⟩
  · next single =>
    rcases reads_hook stage w with ⟨h, denotes, parsed⟩ | ⟨-, f, parsed⟩
    · exact .inr (.inl ⟨h, single, denotes, by simp only [run_bind, run_lift, parsed, run_update]⟩)
    · exact .inr (.inr ⟨f, by simp only [run_bind, run_lift, parsed]⟩)

def Agrees (r : Ref .ignoreRules) (compare : Value) (ss : List Ruling) (w : World) : Prop :=
  w.heap.Live r ∧ Holds (w.heap.get r) compare ss

theorem agrees_set {d : IgnoreRules} (live : w.heap.Live r) (holds : Holds d compare ss) :
    Agrees r compare ss (w.set r d) := by
  refine ⟨World.live_set.mpr live, ?_⟩
  rwa [World.get_set r r d live, if_pos rfl]

theorem agrees_addFor (agrees : Agrees r compare ss w) {c : Call} {stage ps : Value}
    (is : c = .add stage ps ∨ ∃ m, c = .ignore m stage ps) :
    Agrees r compare (ss ++ [⟨c, c.patterns w.heap, (addFor r stage ps w).1.isOk⟩])
      (addFor r stage ps w).2 := by
  obtain ⟨live, holds⟩ := agrees
  have listed : c.patterns w.heap = (w.heap.patterns? ps).getD [] := by
    rcases is with rfl | ⟨m, rfl⟩ <;> rfl
  rcases addFor_cases live stage ps with ⟨h, qs, denotes, known, run⟩ | ⟨f, v, run, rest⟩ <;> rw [run]
  · rw [listed, known]
    refine agrees_set (World.live_set.mpr live) ((holds.touch h).added rfl fun k => ?_)
    rcases is with rfl | ⟨m, rfl⟩ <;>
      simp [Ruling.Adds, Ruling.isAdd, Ruling.concerns, denotes, Except.isOk, Except.toBool, eq_comm]
  · rcases rest with rfl | ⟨h, rfl⟩
    · exact ⟨live, holds.refused rfl⟩
    · exact agrees_set live ((holds.touch h).refused rfl)

theorem agrees_clearFor (agrees : Agrees r compare ss w) (stage : Value) :
    Agrees r compare (ss ++ [⟨.clear stage, [], (clearFor r stage w).1.isOk⟩])
      (clearFor r stage w).2 := by
  obtain ⟨live, holds⟩ := agrees
  rcases clearFor_cases r stage w with ⟨rfl, run⟩ | ⟨h, single, denotes, run⟩ | ⟨f, run⟩ <;> rw [run]
  · refine agrees_set live (holds.cleared rfl rfl fun k => ⟨fun _ => rfl, fun keeps => ?_⟩)
    exact absurd ⟨rfl, rfl, by simp [Ruling.concerns]⟩ keeps
  · refine agrees_set live (holds.cleared rfl rfl fun k => ?_)
    have clears : (Ruling.mk (.clear stage) [] (Except.ok () : Except Fault Unit).isOk).Clears k ↔
        k = h := by
      simp [Ruling.Clears, Ruling.isAdd, Ruling.concerns, single, denotes, Except.isOk,
        Except.toBool, eq_comm]
    rw [clears, matcher_clear]
    exact ⟨fun same => if_pos same, fun other => if_neg other⟩
  · exact ⟨live, holds.refused rfl⟩

theorem agrees_same (agrees : Agrees r compare ss w) (live : v.heap.Live r)
    (same : v.heap.get r = w.heap.get r) : Agrees r compare ss v := ⟨live, same ▸ agrees.2⟩

theorem agrees_after {e : Edit Unit} {o : Except (Ref .failure) Unit} {c : Call}
    (agrees : Agrees r compare (ss ++ [⟨c, c.patterns w.heap, (e w).1.isOk⟩]) (e w).2)
    (run : e.after w = (o, v)) : Agrees r compare (ss ++ [⟨c, c.patterns w.heap, o.isOk⟩]) v := by
  unfold Edit.after at run
  rcases ends : e w with ⟨f | _, u⟩ <;> rw [ends] at run agrees <;> cases run
  · exact agrees_same agrees (Heap.live_alloc_kind (by decide) |>.mpr agrees.1)
      (World.get_alloc_kind (k := .failure) f (by decide))
  · exact agrees

theorem after_of_returns {e : Edit Unit} {x : Value} {l : List Exchange} {o : Outcome}
    (unfolds : ((edit e).bind fun _ => .done x).Unfolds w l o v) :
    ∃ p, e.after w = (p, v) ∧ o.isOk = p.isOk := by
  rcases unfolds_bind.mp unfolds with ⟨_, m, n, u, rfl, done, ends⟩ | ⟨f, rfl, refused⟩
  · obtain ⟨rfl, run⟩ := unfolds_edit.mp done
    obtain ⟨rfl, rfl, rfl⟩ := unfolds_done.mp ends
    exact ⟨_, run, rfl⟩
  · obtain ⟨rfl, run⟩ := unfolds_edit.mp refused
    exact ⟨_, run, rfl⟩

theorem agrees_called {c : Call} {l : List Exchange} {o : Outcome} (agrees : Agrees r compare ss w)
    (sound : c.Sound r w.heap) (unfolds : (c.run r).Unfolds w l o v) :
    Agrees r compare (ss ++ [⟨c, c.patterns w.heap, o.isOk⟩]) v := by
  cases c with
  | add stage ps =>
    have bound : Parameter.bind [required .stage, required .patterns] [stage, ps] [] w =
      (.ok [stage, ps], w) := rfl
    obtain ⟨p, run, same⟩ := after_of_returns ((unfolds_doing bound).mp unfolds)
    rw [same]
    exact agrees_after (agrees_addFor agrees (.inl rfl)) run
  | ignore m stage ps =>
    have bound : Parameter.bind [required .stage, required .patterns] [stage, ps] [] w =
      (.ok [stage, ps], w) := rfl
    have manager : (Edit.read m).run w = (.ok (w.heap.get m), w) := rfl
    have rules : (Edit.read (w.heap.get m).rules).run w =
      (.ok (w.heap.get (w.heap.get m).rules), w) := rfl
    have unfolds := (unfolds_doing manager).mp ((unfolds_doing bound).mp unfolds)
    obtain ⟨p, run, same⟩ := after_of_returns ((unfolds_doing rules).mp unfolds)
    rw [show (w.heap.get (w.heap.get m).rules).ignore = r from sound] at run
    rw [same]
    exact agrees_after (agrees_addFor agrees (.inr ⟨m, rfl⟩)) run
  | clear stage =>
    have bound : Parameter.bind [nullable .stage] [stage] [] w = (.ok [stage], w) := rfl
    obtain ⟨p, run, same⟩ := after_of_returns ((unfolds_doing bound).mp unfolds)
    rw [same]
    exact agrees_after (agrees_clearFor agrees stage) run

end

end IgnoreRules
end AsyncImport
