import AsyncImport.Session.Execute
import AsyncImport.Task.Machine

/-!
# Sessions

A session carries out the steps of a script one after the other and reports on each. A step that
fails does not end the session.
-/

namespace AsyncImport

/-- The names that a manager's loader works on, by phase, and the modules that the manager keeps. -/
structure Progress where
  loading : List View
  pending : List View
  loaded : List View
  modules : List String

/-- What a host is told after a step. -/
structure Report where
  outcome : Except Fault View
  notes : List Note
  /-- The progress of the managers that are held in variables. -/
  managers : List (String × Progress)

namespace Heap

def progress (h : Heap) (m : Ref .manager) : Progress :=
  let manager := h.get m
  let store := h.get (h.get manager.loader).store
  let names (p : Phase) : List View := (store.namesIn (.phase p)).map h.view
  ⟨names .loading, names .pending, names .loaded, manager.modules.keys⟩

end Heap

namespace World

def managers (w : World) : List (String × Progress) :=
  w.bindings.entries.filterMap fun e =>
    match e.2 with
    | .obj .manager m => some (e.1, w.heap.progress m)
    | _ => none

end World

namespace Session

variable (functions : Assoc String Function) (fuel : Nat)

def perform (m : Machine) (r : Routine Value) : Machine × Outcome :=
  match m.host (meaning functions) fuel r with
  | (m, some o) => (m, o)
  | (m, none) =>
    let (m, e) := m.failure (.plain .unfinished)
    (m, .error e)

def finish (m : Machine) (v : Value) : Machine × Outcome :=
  match perform functions fuel m (do return .obj .future (← Edit.asFuture v)) with
  | (m, .ok (.obj .future f)) =>
    match (m.run (meaning functions) fuel).outcome? f with
    | (m, some o) => (m, o)
    | (m, none) =>
      let (m, e) := m.failure (.plain .unfinished)
      (m, .error e)
  | r => r

def keepResult (name : Option String) (r : Machine × Outcome) : Machine × Outcome :=
  match r with
  | (m, .ok v) => (m.edit (Edit.keep name v), .ok v)
  | r => r

def outcome (m : Machine) : Step → Machine × Outcome
  | .act a awaits keep =>
    keepResult keep <|
      match perform functions fuel m (a.run []) with
      | (m, .ok v) => if awaits then finish functions fuel m v else (m, .ok v)
      | r => r
  | .tick n => (m.rounds (meaning functions) fuel n, .ok .none)
  | .wait e keep =>
    keepResult keep <|
      match perform functions fuel m (e.eval []) with
      | (m, .ok v) => finish functions fuel m v
      | r => r

def step (m : Machine) (s : Step) : Machine × Report :=
  let (m, o) := outcome functions fuel { m with world := { m.world with notes := #[] } } s
  let h := m.world.heap
  let outcome := match o with
    | .ok v => .ok (h.view v)
    | .error e => .error (h.get e)
  (m, ⟨outcome, m.world.notes.toList, m.world.managers⟩)

def steps (m : Machine) : List Step → List Report
  | [] => []
  | s :: ss =>
    let (m, r) := step functions fuel m s
    r :: steps m ss

def world (s : Script) : World :=
  { files := s.files, functions := s.functions.mapValues Function.signature }

/-- Carries out a script. `fuel` bounds the number of moments that any step may take. -/
def run (s : Script) : List Report := steps s.functions fuel { world := world s } s.steps

end Session
end AsyncImport
