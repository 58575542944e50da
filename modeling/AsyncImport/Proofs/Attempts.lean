import AsyncImport.Proofs.Passages
import AsyncImport.Proofs.Staging
import AsyncImport.Session.Execute

/-!
# Attempts at a name

What is done about a name from its request until it is marked as loaded: its draft is fetched, transformed
and searched for dependencies, these are loaded, and the record of the name is settled. Each of these is
a passage. `comes` lemmas show that the code of an activity keeps to its passage.
-/

namespace AsyncImport

open Edit Routine

/-! ## The order of things -/

namespace Passage

def any {α : Type} : Passage α := fun _ _ _ => True

def still {α : Type} : Passage α := fun _ ss _ => ss = []

def gives {α : Type} (a : α) : Passage α := does (pure a)

/-- One thing, and something to be made sure of afterwards, for which nothing is asked. -/
def ensures {α : Type} (P : Passage α) : Passage α := fun w ss r =>
  ∃ s, P w ss s ∧ ∀ a v, r = some (.ok a, v) → ∃ u, s = some (.ok a, u)

inductive Joining (fs : List Value) : Passage Value
  | refused {w r} (fails : ∀ x v, r ≠ some (.ok x, v)) : Joining fs w [] r
  | joined {g w b ss r} (grouped : group fs w = (.ok g, b)) (goes : awaits g b ss r)
      (valued : ∀ x v, r = some (.ok x, v) → ∀ f, .obj .future f ∈ fs → v.Valued f) : Joining fs w ss r

inductive Gathering (l : Ref .loader) (d : Ref .draft) : Passage PUnit
  | refused {w r} (fails : ∀ x v, r ≠ some (.ok x, v)) : Gathering l d w [] r
  | requested {deps fs w y z ss r} (listed : (items (w.heap.get d).deps).run w = (.ok deps, y))
      (requested : (deps.mapM fun dep => edit (Loader.fetch l dep (.obj .draft d))).Unfolds y [] (.ok fs) z)
      (goes : (next (Joining fs) fun _ => gives PUnit.unit) z ss r) : Gathering l d w ss r

/-- The dependencies of a draft, if there are any, are requested and awaited. This gives the draft only
when all of them have been fetched. -/
inductive Loads (l : Ref .loader) : Value → Passage Value
  | refused {draft w r} (fails : ∀ x v, r ≠ some (.ok x, v)) : Loads l draft w [] r
  | free {d : Ref .draft} {w v ss r} (free : (truthy (w.heap.get d).deps).run w = (.ok false, v))
      (goes : gives (.obj .draft d) v ss r) : Loads l (.obj .draft d) w ss r
  | gathers {d : Ref .draft} {w u v ss r} (dependent : (truthy (w.heap.get d).deps).run w = (.ok true, u))
      (starts : Loader.startWaiting l (w.heap.get d).name (w.heap.get d).deps u = (.ok (), v))
      (goes : (next (ensures (Gathering l d)) fun _ => gives (.obj .draft d)) v ss r) :
      Loads l (.obj .draft d) w ss r

def Loading (l : Ref .loader) (draft : Value) : Passage Value :=
  asks (.loadDependencies l draft) (Loads l draft)

def Transforming (manager draft : Value) : Passage Value :=
  next (along (Stage.Transforms manager draft)) fun d => gives (.obj .draft d)

inductive Wanting (manager draft : Value) : Passage Value
  | unmanaged {w r} (unmanaged : ∀ m, manager ≠ .obj .manager m) (fails : ∀ x v, r ≠ some (.ok x, v)) :
      Wanting manager draft w [] r
  | managed {m w ss r} (manages : manager = .obj .manager m)
      (goes : Loading (w.heap.get m).loader draft w ss r) : Wanting manager draft w ss r

def Depending (manager draft : Value) : Passage Value :=
  next (along (Stage.Depends manager draft)) fun d => Wanting manager (.obj .draft d)

inductive Resuming (a : Activity) (P : Passage Value) : Value → Passage Value
  | coroutine {c w ss r} (goes : (next (does (Edit.spend c)) fun _ => asks a P) w ss r) :
      Resuming a P (.obj .coroutine c) w ss r

def Suspending (f : Value) (args : List Value) (a : Activity) (P : Passage Value) : Passage Value :=
  next (asks (.invoke f args) (does (suspended a))) fun c => asks (.awaitValue c) (Resuming a P c)

inductive Calling (context : Value) : Value → Value → Passage Value
  | transform {x w ss r} (goes : Suspending (.library .transformStage) [context, x]
      (.transformStage context x) (Transforming context x) w ss r) :
      Calling context (.library .transformStage) x w ss r
  | dependency {x w ss r} (goes : Suspending (.library .dependencyStage) [context, x]
      (.dependencyStage context x) (Depending context x) w ss r) :
      Calling context (.library .dependencyStage) x w ss r
  | other {s x w ss r} (untransforming : s ≠ .library .transformStage)
      (independent : s ≠ .library .dependencyStage)
      (goes : along (Handler.Answers s [context, x]) w ss r) : Calling context s x w ss r

def Running (context s x : Value) : Passage Value :=
  next (does (Pipeline.stageName s)) fun n => next (does (debug "pipeline.stage" [("stage", n)])) fun _ =>
    next (Calling context s x) fun y => gives (if y = .none then x else y)

def Stages (context : Value) : List Value → Value → Passage Value
  | [], x => gives x
  | s :: ss, x => next (Running context s x) (Stages context ss)

inductive Preparing (l : Ref .loader) (d : Ref .draft) : Passage Value
  | empty {w r} (empty : (w.heap.get d).hasContent = false) (fails : ∀ x v, r ≠ some (.ok x, v)) :
      Preparing l d w [] r
  | compiled {w ss r} (compiled : (w.heap.get d).isCompiled)
      (goes : Loading l (.obj .draft d) w ss r) : Preparing l d w ss r
  | source {p w ss r} (source : (w.heap.get d).canCompile)
      (pipeline : (w.heap.get l).pipeline = .obj .pipeline p)
      (goes : Stages (w.heap.get l).manager (w.heap.get p).stages (.obj .draft d) w ss r) :
      Preparing l d w ss r
  | stageless {w r} (source : (w.heap.get d).canCompile)
      (stageless : ∀ p, (w.heap.get l).pipeline ≠ .obj .pipeline p) (fails : ∀ x v, r ≠ some (.ok x, v)) :
      Preparing l d w [] r

def Attempt (l : Ref .loader) (name parent : Value) : Passage Value := fun w =>
  next (along (Stage.Fetches (w.heap.get l).manager name parent)) (Preparing l) w

inductive Awaiting : Value → Passage Value
  | future {f w ss r} (goes : awaits f w ss r) : Awaiting (.obj .future f) w ss r
  | other {v w ss r} (other : ∀ f, v ≠ .obj .future f) (goes : along (awaitValue v).Unfolds w ss r) :
      Awaiting v w ss r

inductive Working (work : Value) : Passage Value
  | fetch {c l name parent w ss r} (is : work = .obj .coroutine c)
      (activity : (w.heap.get c).activity = .fetchDraft l name parent)
      (goes : (next (does (Edit.spend c)) fun _ =>
        asks (.fetchDraft l name parent) (Attempt l name parent)) w ss r) : Working work w ss r
  | spent {c w r} (is : work = .obj .coroutine c) (spent : (w.heap.get c).spent)
      (fails : ∀ x v, r ≠ some (.ok x, v)) : Working work w [] r
  | other {w ss r}
      (other : ∀ c l name parent, work = .obj .coroutine c → (w.heap.get c).activity ≠ .fetchDraft l name parent)
      (goes : Awaiting work w ss r) : Working work w ss r

/-- The record of a name is settled: it is marked as loaded when its work has given a draft, and is
dropped otherwise. -/
inductive Settling (l : Ref .loader) (name work : Value) (markLoaded report : Bool) : Passage Value
  | working {w ss} (goes : Working work w ss none) : Settling l name work markLoaded report w ss none
  | failed {e w u ss ts r s} (goes : Working work w ss (some (.error e, u)))
      (drops : along (Unfolds (do
        Loader.dropLoading l name
        if report && (← Edit.read e).ordinary then
          Manager.report (← Loader.managerOf l) name (.obj .failure e))) u ts s)
      (fails : ∀ x v, r ≠ some (.ok x, v)) : Settling l name work markLoaded report w (ss ++ ts) r
  | settled {draft w u ss r} (goes : Working work w ss (some (.ok draft, u)))
      (settles : (next
        (does (if markLoaded then Loader.setItem l .loaded name draft else Loader.dropLoading l name))
        fun _ => does (Loader.delegate l name)) u [] r) : Settling l name work markLoaded report w ss r

end Passage

/-! ## How the code goes -/

section

open Passage

variable {α β : Type} {body : Meaning} {host : Host} {w u v : World} {ss : List Story} {l : Ref .loader}
  {draft name parent manager context x : Value} {r : Option (Outcome × World)}

end

end AsyncImport
