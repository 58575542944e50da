import AsyncImport.Proofs.Attempts

/-!
# Making modules of loaded names

What is done about a name once it is loaded: its draft is taken from its record and compiled, and the
module is linked, for which its dependencies are required and its factory is called.
-/

namespace AsyncImport

open Edit Routine

def Loader.Takes (l : Ref .loader) (name : Value) (w : World) (draft : Value) (u : World) : Prop :=
  ∃ z, (isIn l .loaded name).run w = (.ok true, z) ∧ remove l name z = (.ok draft, u)

namespace Passage

inductive Compiling (l : Ref .loader) (name : Value) : Passage Value
  | refused {w r} (fails : ∀ x v, r ≠ some (.ok x, v)) : Compiling l name w [] r
  | taken {draft w u ss r} (takes : Loader.Takes l name w draft u)
      (goes : asks (.compileStage (u.heap.get l).manager draft)
        (along (Stage.Compiles (u.heap.get l).manager draft)) u ss r) : Compiling l name w ss r

inductive Producing (manager : Value) (r : Ref .module) : Passage Value
  | refused {w o} (fails : ∀ x v, o ≠ some (.ok x, v)) : Producing manager r w [] o
  | produced {deps w u ss o} (listed : (items (w.heap.get r).deps).run w = (.ok deps, u))
      (factory : (w.heap.get r).factory ≠ .none) (uncoded : (w.heap.get r).hasCode = false)
      (goes : (next
        (along (Unfolds (deps.mapM fun dep => do codeOf (← Linker.dependency manager dep))))
        fun codes => next (asks (.produce (w.heap.get r).factory codes) any) fun _ => still) u ss o) :
      Producing manager r w ss o
  | plain {deps w u ss o} (listed : (items (w.heap.get r).deps).run w = (.ok deps, u))
      (plain : (w.heap.get r).factory = .none ∨ (w.heap.get r).hasCode)
      (goes : (next (along (Unfolds (deps.forM fun dep => do let _ ← Linker.dependency manager dep)))
        fun _ => still) u ss o) : Producing manager r w ss o

inductive Handing (m : Ref .manager) (r : Ref .module) : Passage Value
  | own {w ss o} (own : (w.heap.get m).linker = .library .linkModule)
      (goes : (next (asks (.invoke (.library .linkModule) [.obj .manager m, .obj .module r])
        (Producing (.obj .manager m) r)) fun _ => still) w ss o) : Handing m r w ss o
  | other {w ss o} (other : (w.heap.get m).linker ≠ .library .linkModule)
      (goes : (next (asks (.invoke (w.heap.get m).linker [.obj .manager m, .obj .module r]) any)
        fun _ => still) w ss o) : Handing m r w ss o

def HandingOver (m : Ref .manager) (r : Ref .module) : Passage Value :=
  next (Handing m r) fun linked => along (Unfolds (do
    Bus.emitOn (← Edit.read m).events (.str Event.link) (.linked (← nameOf linked))
    return linked))

inductive Linking (l : Ref .loader) : Value → Passage Value
  | refused {module w o} (fails : ∀ x v, o ≠ some (.ok x, v)) : Linking l module w [] o
  | linked {r m w u ss o} (near : w.Near u) (goes : HandingOver m r u ss o) :
      Linking l (.obj .module r) w ss o
  | registered {r m name w u ss o} (near : w.Near u)
      (goes : (next (along (Manager.reportRegistration m name).Unfolds) fun _ => HandingOver m r) u ss o) :
      Linking l (.obj .module r) w ss o

/-- A name that is loaded again in the meantime is compiled again. -/
inductive Recompiling (l : Ref .loader) (name module : Value) : Passage (Option Value)
  | once {w r} : Recompiling l name module w [] r
  | again {w u ss r} (near : w.Near u)
      (goes : (next (Compiling l name) fun module => gives (some module)) u ss r) :
      Recompiling l name module w ss r

inductive CompilingTwice (l : Ref .loader) (name : Value) : Passage (Option Value)
  | never {w r} : CompilingTwice l name w [] r
  | compiling {w u ss r} (near : w.Near u) (goes : (next (Compiling l name) (Recompiling l name)) u ss r) :
      CompilingTwice l name w ss r

def Starting (l : Ref .loader) (name : Value) : Passage Value :=
  next (does (Loader.startPending l name)) fun registration => next (Awaiting registration) fun draft =>
    next (does (asDraft draft)) fun d => next (does (Module.ofDraft d)) fun r => Linking l (.obj .module r)

/-- What has been compiled is linked, or else a registration that is pending by now. -/
inductive Finishing (l : Ref .loader) (name : Value) : Option Value → Passage Value
  | registered {w u ss r} (near : w.Near u) (goes : Starting l name u ss r) : Finishing l name none w ss r
  | reregistered {m module w u ss r} (near : w.Near u)
      (goes : (next (along (Manager.reportRegistration m name).Unfolds) fun _ => Starting l name) u ss r) :
      Finishing l name (some module) w ss r
  | linking {module w u ss r} (near : w.Near u) (goes : Linking l module u ss r) :
      Finishing l name (some module) w ss r
  | refused {compiled w r} (fails : ∀ x v, r ≠ some (.ok x, v)) : Finishing l name compiled w [] r

/-- The module of a name is built. While the name is in flight, this is left for later. -/
inductive Building (l : Ref .loader) (name : Value) : Passage Value
  | still {w r} : Building l name w [] r
  | waiting {item w u ss r} (near : w.Near u)
      (goes : (next (Awaiting item) fun _ => asks (.build l name) any) u ss r) : Building l name w ss r
  | building {w u ss r} (near : w.Near u)
      (goes : (next (CompilingTwice l name) (Finishing l name)) u ss r) : Building l name w ss r

end Passage

/-! ## How the code goes -/

section

open Passage

variable {α β : Type} {host : Host} {w u v : World} {ss : List Story} {l : Ref .loader} {m : Ref .manager}
  {name manager : Value} {r : Option (Outcome × World)}

end
end AsyncImport
