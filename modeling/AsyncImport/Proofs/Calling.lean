import AsyncImport.Proofs.Courses
import AsyncImport.Proofs.Hosts

/-!
# Calling and awaiting on a course

What a host has given is called and awaited in the same way whatever the library's code is compared
by: all that matters is which activities may be carried out.
-/

namespace AsyncImport

namespace Protocol.Course

open Edit

variable {P : Protocol} {C : Course P} {S : Site} {α : Type} {a : Option Activity} {w : World}

def Grants (C : Course P) (a : Option Activity) (w : World) (b : Activity) : Prop :=
  P.conduct.calls a w b → P.pre a b w ∧
    ∀ o v, P.lasts w v → v.current = w.current → P.post b w o v → C.keeps w v

theorem goes_granted {b : Activity} (grants : C.Grants a w b) :
    C.Goes a (Routine.perform b) Any w :=
  goes_perform fun calls => (grants calls).imp_right fun post o v lasts current done =>
    ⟨post o v lasts current done, trivial⟩

/-! ## Calling -/

theorem goes_one (fine : C.fine w) (p : Word) {f : Value → Routine Value} (args : List Value)
    (next : ∀ x, args = [x] → C.Goes a (f x) Any w) :
    C.Goes a ((Method.one (required p) f).call ⟨args, []⟩) Any w := by
  unfold Method.call Method.one
  rw [Site.run_bindOne]
  split
  · next one =>
    obtain ⟨x, rfl⟩ := List.length_eq_one_iff.mp one
    exact goes_first (x := pure [x]) fine fun _ _ run _ => by
      cases run
      exact next x rfl
  · exact goes_raised (f := .typeMismatch) fine

theorem goes_two {Q : Outcome → World → Prop} [Lenient Q] (fine : C.fine w) (p q : Word)
    {f : Value → Value → Routine Value} (args : List Value)
    (next : ∀ x y, args = [x, y] → C.Goes a (f x y) Q w) :
    C.Goes a ((Method.two (required p) (required q) f).call ⟨args, []⟩) Q w := by
  unfold Method.call Method.two
  rw [Site.run_bindTwo]
  split
  · next two =>
    obtain ⟨x, y, rfl⟩ : ∃ x y, args = [x, y] := by
      rcases args with _ | ⟨x, _ | ⟨y, _ | ⟨z, args⟩⟩⟩ <;> simp_all
    exact goes_first (x := pure [x, y]) fine fun _ _ run _ => by
      cases run
      exact next x y rfl
  · exact goes_raised (f := .typeMismatch) fine

theorem goes_later (fine : C.fine w) (b : Activity) : C.Goes a (later b) Any w :=
  goes_quiet fine fun _ _ _ _ => trivial

theorem goes_linkModule {Q : Outcome → World → Prop} [Lenient Q] {args : List Value}
    (fine : C.fine w) (permitted : S.Permitted w (.library .linkModule) args)
    (link : ∀ x, args = [.obj .manager S.manager, x] →
      C.Goes a (Linker.link (.obj .manager S.manager) x) Q w) :
    C.Goes a ((libraryMethod .linkModule).call ⟨args, []⟩) Q w := by
  refine goes_two fine .manager .module args fun m x is => ?_
  subst is
  obtain rfl : m = .obj .manager S.manager := by simpa [Site.Permitted] using permitted
  exact link x rfl

theorem goes_library {p : Procedure} {args : List Value} (fine : C.fine w)
    (permitted : S.Permitted w (.library p) args)
    (link : ∀ x, p = .linkModule → args = [.obj .manager S.manager, x] →
      C.Goes a (Linker.link (.obj .manager S.manager) x) Any w) :
    C.Goes a ((libraryMethod p).call ⟨args, []⟩) Any w := by
  have quiet (x : Quiet Value) : C.Goes a (liftM x : Routine Value) Any w :=
    goes_quiet fine fun _ _ _ _ => trivial
  have one (q : Word) (f : Value → Quiet Value) : C.Goes a
      ((Method.one (required q) fun v => (f v : Routine Value)).call ⟨args, []⟩) Any w :=
    goes_one fine q args fun x _ => quiet _
  have stage (f : Value → Value → Activity) : C.Goes a
      ((Method.two (required .manager) (required .draft) fun m d => later (f m d)).call ⟨args, []⟩)
      Any w := goes_two fine .manager .draft args fun x y _ => goes_later fine _
  cases p with
  | linkModule => exact goes_linkModule fine permitted fun x given => link x rfl given
  | globMatch =>
    refine goes_two fine .value .pattern args fun x y _ => ?_
    exact goes_first fine fun _ v _ keeps => goes_done (C.sound keeps) trivial
  | missingCompile => exact goes_two fine .manager .draft args fun m d _ => quiet _
  | defaultResolve | missingFetch | observeRegistration | observeFailure | observeLink => exact one _ _
  | transformStage | dependencyStage => exact stage _
  | _ => simp [Site.Permitted] at permitted

theorem goes_callHost (fine : C.fine w) (n : String) (args : List Value)
    (grants : ¬ w.MayWait n → C.Grants a w (.host n args)) :
    C.Goes a (Routine.callHost n args) Any w := by
  unfold Routine.callHost
  refine goes_world ?_
  split
  · next s known =>
    by_cases waits : s.asynchronous = true
    · simp only [waits, if_true]
      exact goes_later fine _
    · simp only [waits]
      refine goes_granted (grants fun ⟨r, same, may⟩ => ?_)
      obtain rfl := Option.some.inj (known.symm.trans same)
      exact absurd may waits
  · exact goes_raise fine

theorem goes_callWith {f : Value} {args : List Value} (fine : C.fine w)
    (permitted : S.Permitted w f args) (bound : f.Bound → ∀ r : Routine Value, C.Goes a r Any w)
    (require : ∀ n v, C.keeps w v → C.Grants a v (.require S.manager n))
    (host : ∀ n xs, ¬ w.MayWait n → C.Grants a w (.host n xs))
    (link : ∀ x, f = .library .linkModule → args = [.obj .manager S.manager, x] →
      C.Goes a (Linker.link (.obj .manager S.manager) x) Any w) :
    C.Goes a (Routine.callWith f ⟨args, []⟩) Any w := by
  unfold Routine.callWith
  split
  · exact goes_library fine permitted fun x is given => link x (is ▸ rfl) given
  · exact bound trivial _
  · simp only [List.isEmpty_nil, if_true]
    split
    · exact goes_callHost fine _ _ (host _ _)
    · exact goes_quiet fine fun _ _ _ _ => trivial
    · refine goes_first fine fun d u run keeps => ?_
      cases run
      have is : _ = S.manager := permitted
      rw [is]
      exact goes_granted (require _ w keeps)
    · exact bound trivial _
    · exact goes_raise fine

/-! ## Code that calls and awaits what a host has given -/

def invoking (W : World → World → Prop) : Bounds :=
  ⟨W, fun b => ∃ f args, b = .invoke f args, fun _ => True⟩

def consulting (W : World → World → Prop) : Bounds :=
  ⟨W, fun b => (∃ f args, b = .invoke f args) ∨ ∃ x, b = .awaitValue x, fun _ => True⟩

section

variable {W : World → World → Prop}

theorem plain_invoking (tame : ∀ {w v : World}, w.Tame v → W w v) : (invoking W).Plain :=
  ⟨tame, fun f args => ⟨f, args, rfl⟩⟩

theorem roomy_consulting (tame : ∀ {w v : World}, w.Tame v → W w v) : (consulting W).Roomy :=
  ⟨⟨tame, fun f args => .inl ⟨f, args, rfl⟩⟩, fun x => .inr ⟨x, rfl⟩⟩

variable (fine : C.fine w)
  (writes : ∀ {u v}, C.keeps w u → W u v → P.conduct.writes a u v →
    P.move a u v ∧ P.Fair u v ∧ C.keeps u v)
  (invoke : ∀ {u} f args, C.keeps w u → C.Grants a u (.invoke f args))
include fine writes invoke

theorem goes_invoking {r : Routine α} (within : r.Within (invoking W) w) : C.Goes a r Any w := by
  refine goes_within (B := invoking W) fine writes ?_ (fun _ _ => trivial) within
  rintro u _ keeps ⟨f, args, rfl⟩
  exact invoke f args keeps

theorem goes_consulting {r : Routine α}
    (await : ∀ {u} x, C.keeps w u → C.Grants a u (.awaitValue x))
    (within : r.Within (consulting W) w) : C.Goes a r Any w := by
  refine goes_within (B := consulting W) fine writes ?_ (fun _ _ => trivial) within
  rintro u _ keeps (⟨f, args, rfl⟩ | ⟨x, rfl⟩)
  · exact invoke f args keeps
  · exact await x keeps

end

/-! ## Awaiting -/

theorem goes_awaitValue {x : Value} (fine : C.fine w) (free : C.free w)
    (grants : ∀ (c : Ref .coroutine) u, x = .obj .coroutine c → C.keeps w u →
      C.Grants a u (w.heap.get c).activity) : C.Goes a (Routine.awaitValue x) Any w := by
  unfold Routine.awaitValue
  split
  · exact goes_result fine (fun _ => free) fun _ _ _ _ => trivial
  · next c =>
    refine goes_first fine fun co u run keeps => ?_
    cases run
    split
    · exact goes_raised fine
    · exact goes_first fine fun _ v _ keeps => goes_granted (grants c v rfl keeps)
  · exact goes_raise fine

theorem goes_settled {x : Value} (fine : C.fine w) (free : C.free w)
    (grants : ∀ (c : Ref .coroutine) u, x = .obj .coroutine c → C.keeps w u →
      C.Grants a u (w.heap.get c).activity) : C.Goes a (Routine.settled x) Any w := by
  unfold Routine.settled
  split
  · exact goes_awaitValue fine free grants
  · exact goes_done fine trivial

end Protocol.Course
end AsyncImport
