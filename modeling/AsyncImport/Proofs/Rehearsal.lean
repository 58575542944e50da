import AsyncImport.Proofs.Chart
import AsyncImport.Proofs.Discipline

/-!
# Moments without a host

Once a host has made its requests, the library carries them out with code of its own. What is expected
of a host can then be checked moment by moment: `Site.unaided` tells that the next request is made by
the library, which keeps names and has drafts with the dependencies of a plan.
-/

namespace AsyncImport

namespace World

variable (w : World)

def keepsNames (v : World) : Bool :=
  (List.range w.heap.drafts.size).all fun i =>
    (v.heap.get (⟨i⟩ : Ref .draft)).name = (w.heap.get (⟨i⟩ : Ref .draft)).name

def keepsTo (g : Plan) (d : Ref .draft) : Bool :=
  match (w.heap.get d).name with
  | .str s =>
    if w.heap.truthy (w.heap.get d).deps then
      w.heap.items? (w.heap.get d).deps = some ((g s).map .str)
    else g s = []
  | _ => true

def loads (g : Plan) : Option Activity → Bool
  | some (.loadDependencies _ (.obj .draft d)) => w.keepsTo g d &&
    ((w.heap.items? (w.heap.get d).deps).getD []).all fun x => (w.heap.key? x).isSome
  | _ => true

def delivers : Option Activity → Value → Bool
  | some (.fetchDraft ..), _ => false
  | some (.compileStage _ (.obj .draft d)), .obj .module r =>
    decide (w.heap.Live r) && (w.heap.get d).name = .str (w.heap.get r).name &&
      match (w.heap.get r).deps with
      | .obj .list l => decide (w.heap.Live l)
      | _ => false
  | _, _ => true

variable {w v : World} {g : Plan}

theorem namesKept_of_keepsNames (kept : w.keepsNames v = true) : w.NamesKept v := fun d live => by
  have all := List.all_eq_true.mp kept d.id (List.mem_range.mpr live)
  exact of_decide_eq_true all

theorem keyed_of_loads {l : Ref .loader} {d : Ref .draft}
    (loads : w.loads g (some (.loadDependencies l (.obj .draft d))) = true) : w.Keyed d := by
  intro deps is x mem
  obtain ⟨-, keys⟩ := Bool.and_eq_true_iff.mp loads
  rw [is] at keys
  exact Option.isSome_iff_ne_none.mp (List.all_eq_true.mp keys x mem)

end World

def Inner : Option Activity → Bool
  | none | some (.host _ _) => false
  | some (.invoke f _) | some (.produce f _) => (f matches .library _ | .dataType _)
  | _ => true

def links : Option Activity → Bool
  | some (.build _ _) | some (.buildReported _ _) | some (.buildFetched _ _ _)
  | some (.buildNow _ _) | some (.link _ _) | some (.require _ _) => true
  | _ => false

theorem not_hosted {a : Option Activity} (inner : Inner a = true) : ¬ Hosted a := by
  intro hosted
  rcases a with - | b
  · cases inner
  · cases b with
    | host => cases inner
    | invoke f args | produce f args => cases f <;> first | exact hosted | cases inner
    | _ => exact hosted

theorem hosted_of_atOnce {a : Option Activity} {w : World} (atOnce : w.AtOnce a) : Hosted a := by
  rcases a with - | b
  · trivial
  · cases b <;> first | exact atOnce | trivial

theorem hosted_of_scripted {a : Option Activity} (scripted : Scripted a) : Hosted a := by
  rcases a with - | b
  · trivial
  · cases b <;> first | exact scripted | trivial

namespace Site

variable (S : Site) (g : Plan)

def answers (a : Option Activity) : Activity → Bool
  | .produce (.dataType _) _ => true
  | .invoke (.library .linkModule) args =>
    args.head? = some (.obj .manager S.manager) && links a
  | .host .. | .invoke .. | .produce .. | .awaitValue _ | .loadDependencies .. | .link .. => false
  | _ => true

def unaided (m : Machine) : Bool :=
  match m.focus with
  | none => true
  | some x => Inner x.activity && match x.code with
    | .done v => m.world.loads g x.activity && m.world.delivers x.activity v
    | .write v _ => m.world.keepsNames v && m.world.loads g x.activity
    | .call b _ => S.answers x.activity b
    | _ => true

variable {S g} {m : Machine} {a : Option Activity} {b : Activity} {w : World}

theorem linker_of_answers {f : Value} {args : List Value}
    (answers : S.answers a (.invoke f args) = true) : f = .library .linkModule ∧
      args.head? = some (.obj .manager S.manager) ∧ links a = true := by
  cases f with
  | library p =>
    cases p <;> try cases answers
    obtain ⟨head, linking⟩ := Bool.and_eq_true_iff.mp answers
    exact ⟨rfl, of_decide_eq_true head, linking⟩
  | _ => cases answers

theorem dataType_of_answers {f : Value} {args : List Value}
    (answers : S.answers a (.produce f args) = true) : ∃ t, f = .dataType t := by
  cases f with
  | dataType t => exact ⟨t, rfl⟩
  | _ => cases answers

theorem permitted_of_answers (answers : S.answers a b = true) {f : Value} {args : List Value}
    (is : b = .invoke f args ∨ b = .produce f args) : S.Permitted w f args := by
  rcases is with rfl | rfl
  · obtain ⟨rfl, head, -⟩ := linker_of_answers answers
    exact head
  · obtain ⟨t, rfl⟩ := dataType_of_answers answers
    trivial

/-- What the library does without a host is expected of the host of a site. -/
theorem observed_of_unaided (unaided : S.unaided g m = true) : S.conduct.Observed m := by
  intro x focus
  unfold Site.unaided at unaided
  rw [focus] at unaided
  obtain ⟨inner, fits⟩ := Bool.and_eq_true_iff.mp unaided
  have hosted := not_hosted inner
  split <;> try trivial
  · next v code =>
    rw [code] at fits
    obtain ⟨kept, loads⟩ := Bool.and_eq_true_iff.mp fits
    refine ⟨World.namesKept_of_keepsNames kept, fun is => absurd is hosted, fun l d is => ?_⟩
    rw [is] at loads
    exact World.keyed_of_loads loads
  · exact fun atOnce => hosted (hosted_of_atOnce atOnce)
  · exact fun is => absurd is hosted
  · next b k code =>
    rw [code] at fits
    exact
      { hosted := fun is => absurd is hosted
        atOnce := fun atOnce => absurd (hosted_of_atOnce atOnce) hosted
        permitted := fun f args is => permitted_of_answers fits is
        awaits := by rintro v rfl; cases fits
        named := by rintro l d s rfl; cases fits
        aloof := fun _ scripted => absurd (hosted_of_scripted scripted) hosted }

end Site

namespace Machine

def heeds (body : Meaning) (fits : Machine → Bool) : Nat → Machine → Bool
  | 0, _ => true
  | n + 1, m => fits m && match m.step body with
    | some m => heeds body fits n m
    | none => true

/-- A run goes on by itself. -/
theorem Run.onward {body : Meaning} {conduct : Conduct} {fits : Machine → Bool} {start : Machine}
    (sound : ∀ {m : Machine}, fits m = true → conduct.Observed m) {m : Machine} {k : Nat}
    (run : Run body conduct start m) (heeds : heeds body fits k m = true) :
    Run body conduct start (m.run body k) := by
  induction k generalizing m with
  | zero => exact run
  | succ k ih =>
    obtain ⟨fits, heeds⟩ := Bool.and_eq_true_iff.mp heeds
    unfold Machine.run
    cases next : m.step body with
    | none => exact run
    | some n =>
      rw [next] at heeds
      exact ih (run.step (sound fits) next) heeds

end Machine
end AsyncImport
