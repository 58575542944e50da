import AsyncImport.Proofs.Groups
import AsyncImport.Proofs.Scheduling
import AsyncImport.Proofs.Stages
import AsyncImport.Session.Execute

/-!
# The discipline of a site

What is expected of a host that uses a manager, and the protocol that all tasks keep to when the host
behaves as expected. A host may request, register, import and require modules at any moment, and its
functions may do the same; it keeps the names of drafts, and leaves the loader's inner workings to
the loader.
-/

namespace AsyncImport

open Edit Routine

/-! ## What is expected of the host -/

/-- A method that was read off an object, or a subscription that waits for its subscriber. What it does
when it is called is the business of whoever has handed it over. -/
def Value.Bound : Value → Prop
  | .method .. | .obj .decorator _ => True
  | _ => False

/-- A step of the host, one of its functions, or something of its own that it has others call. -/
def Hosted : Option Activity → Prop
  | none => True
  | some (.host _ _) => True
  | some (.invoke f _) | some (.produce f _) => f.Bound
  | _ => False

def Scripted : Option Activity → Prop
  | some (.host _ _) => True
  | _ => False

namespace World

variable (w : World)

def MayWait (name : String) : Prop := ∃ s, w.functions.get? name = some s ∧ s.asynchronous = true

def AtOnce : Option Activity → Prop
  | some (.host name _) => ¬ w.MayWait name
  | some (.invoke f _) | some (.produce f _) => f.Bound
  | _ => False

def Keyed (d : Ref .draft) : Prop :=
  ∀ deps, w.heap.items? (w.heap.get d).deps = some deps → ∀ x ∈ deps, w.heap.key? x ≠ none

end World

namespace Site

variable (S : Site)

inductive Asks (w : World) : World → Prop
  | load (name parent : Value) : Asks w ((Loader.load S.loader name parent).after w).2
  | fetch (name parent : Value) : Asks w ((Loader.fetch S.loader name parent).after w).2
  | register (name deps factory : Value) :
      Asks w ((Loader.register S.loader name deps factory).after w).2
  | declare (name deps factory : Value) :
      Asks w ((Manager.register S.manager name deps factory).after w).2
  | start {c : Ref .coroutine} (live : w.heap.Live c) (is : S.Open (w.heap.get c).activity) :
      Asks w ((asFuture (.obj .coroutine c)).after w).2

/-- What may be called on behalf of a host. -/
def Permitted (w : World) (f : Value) (args : List Value) : Prop :=
  match f with
  | .library .linkModule => args.head? = some (.obj .manager S.manager)
  | .library p => p ∈ [.globMatch, .defaultResolve, .missingFetch, .missingCompile, .transformStage,
      .dependencyStage, .observeRegistration, .observeFailure, .observeLink]
  | .obj .delegate r => (w.heap.get r).manager = S.manager
  | _ => True

def Awaitable (w : World) (a : Option Activity) : Value → Prop
  | .obj .future f => ¬ S.aloof ∧ w.heap.Live f
  | .obj .coroutine c => w.heap.Live c ∧ match (w.heap.get c).activity with
    | .transformStage _ _ => ∃ l n p, a = some (.fetchDraft l n p)
    | .dependencyStage m _ => m = .obj .manager S.manager ∧ ∃ l n p, a = some (.fetchDraft l n p)
    | b => S.Open b
  | _ => True

def Plain : Activity → Prop
  | .require m _ => m = S.manager
  | .link l _ | .buildNow l _ => l = S.loader
  | .compileStage _ _ => True
  | _ => False

def Inside (w : World) (s : String) : Prop :=
  ∃ t, w.current = some t ∧ S.Owns w t s ∧ S.next w s = []

structure Calls (a : Option Activity) (w : World) (b : Activity) : Prop where
  hosted : Hosted a → S.Open b ∨ S.Plain b ∨ ∃ f args, b = .invoke f args
  /-- What does not wait calls nothing that may. -/
  atOnce : w.AtOnce a → (∀ m xs, b = .host m xs → ¬ w.MayWait m) ∧
    ∀ m x, b ≠ .importNames m x ∧ b ≠ .importModule m x
  permitted : ∀ f args, b = .invoke f args ∨ b = .produce f args → S.Permitted w f args
  awaits : ∀ v, b = .awaitValue v → S.Awaitable w a v
  /-- A fetch ends up with a draft of the name that it was asked for. -/
  named : ∀ l d s, b = .loadDependencies l d → S.Inside w s →
    ∃ e : Ref .draft, d = .obj .draft e ∧ (w.heap.get e).name = .str s
  aloof : S.aloof → Scripted a → ∃ n args, b = .host n args

/-- What is expected of a host that uses the manager of a site. -/
def conduct : Conduct where
  writes a w v := w.NamesKept v ∧
    (Hosted a → w.Still v ∨ S.Asks w v ∧ (S.aloof → a = none)) ∧
    ∀ l d, a = some (.loadDependencies l (.obj .draft d)) → w.Keyed d
  calls := S.Calls
  pauses a w := ¬ w.AtOnce a
  awaits a w f := Hosted a → w.heap.Live f ∧ (S.aloof → a = none) ∧ ¬ w.AtOnce a
  ends _ _ _ := True

/-! ## The protocol -/

structure Orderly (w : World) : Prop where
  tidy : S.Tidy w
  runs : ∀ t, w.current = some t → w.Runs t

def Anchored (w : World) : Prop := ∀ t, w.current = some t → S.Roams w t

def Fit (w : World) : Activity → Prop
  | .host n _ => w.MayWait n → S.Anchored w
  | .invoke f args | .produce f args => S.Permitted w f args
  | .awaitValue (.obj .future f) => S.Anchored w ∧ ¬ S.aloof ∧ w.heap.Live f
  | .awaitValue (.obj .coroutine c) => S.Anchored w ∧ w.heap.Live c ∧
    match (w.heap.get c).activity with
    | .transformStage _ _ => True
    | .dependencyStage m _ => m = .obj .manager S.manager ∧ ∃ s, S.Inside w s
    | b => S.Open b
  | .awaitValue _ => True
  | .transformStage _ _ => S.Anchored w
  | .dependencyStage m _ => S.Anchored w ∧ m = .obj .manager S.manager ∧ ∃ s, S.Inside w s
  | .loadDependencies l draft => l = S.loader ∧ ∃ s d, S.Inside w s ∧
    draft = .obj .draft d ∧ (w.heap.get d).name = .str s
  | .fetchDraft l name _ => l = S.loader ∧ S.Anchored w ∧ ∃ s, name = .str s ∧ S.Inside w s
  | .compileStage _ _ => True
  | .link l _ | .buildNow l _ => l = S.loader
  | .build l name => l = S.loader ∧ ∃ s t, name = .str s ∧ w.current = some t ∧ S.Builds w t s
  | .importNames m _ | .importModule m _ => m = S.manager ∧ S.Anchored w
  | .require m _ => m = S.manager
  | _ => False

structure Keeps (w v : World) : Prop where
  orderly : S.Orderly v
  evolves : w.Evolves v
  current : v.current = w.current
  rely : ∀ t, w.current = some t → S.Rely t w v

def protocol (host : Host) : Protocol where
  body := host.meaning
  conduct := S.conduct
  ground _ := True
  inv := S.Tidy
  rely t w v := S.Stands w → S.Stands v ∧ S.Rely t w v
  born t w := S.Stands w ∧ S.Born t w
  pre _ a w := S.Orderly w ∧ S.Fit w a
  post _ w _ v := S.Keeps w v
  move _ w v := S.Orderly w ∧ S.Orderly v

end Site
end AsyncImport
