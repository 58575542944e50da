import AsyncImport.Value.Basic

/-!
# Activities

The pieces of work that run for a while: each is named by what it does and what it does it with, so
that a task can be created for it now and run later, and so that activities may lead to each other
freely.
-/

namespace AsyncImport

inductive Activity where
  /-- A function of the host runs. -/
  | host (name : String) (args : List Value)
  /-- A value is called. -/
  | invoke (f : Value) (args : List Value)
  /-- A value is awaited if it can be. -/
  | awaitValue (v : Value)
  | runStages (pipeline : Ref .pipeline) (context payload : Value)
  | runPlugin (plugin : Ref .plugin) (hook draft : Value)
  | runFanout (fanout : Ref .fanout) (draft : Value)
  | runRegistry (registry : Ref .registry) (hook draft : Value)
  | resolveHandler (registry : Ref .registry) (name : Value)
  | fetchStage (manager name parent : Value)
  | transformStage (manager draft : Value)
  | dependencyStage (manager draft : Value)
  | compileStage (manager draft : Value)
  | fetchDraft (loader : Ref .loader) (name parent : Value)
  | pipelineDraft (loader : Ref .loader) (draft : Value)
  | loadDependencies (loader : Ref .loader) (draft : Value)
  | transformOptions (loader : Ref .loader) (options : Ref .dict) (draft : Ref .draft)
  /-- A module is built once its fetch is done. -/
  | buildFetched (loader : Ref .loader) (name fetching : Value)
  /-- A module is built and a failure reported. -/
  | buildReported (loader : Ref .loader) (name : Value)
  | build (loader : Ref .loader) (name : Value)
  /-- A loaded draft is compiled and linked. -/
  | buildNow (loader : Ref .loader) (name : Value)
  /-- A module is linked and announced. -/
  | link (loader : Ref .loader) (module : Value)
  /-- The work for a name in flight is awaited and its record settled. -/
  | settle (loader : Ref .loader) (name work : Value) (markLoaded report : Bool)
  | importNames (manager : Ref .manager) (names : Value)
  | importModule (manager : Ref .manager) (name : Value)
  | require (manager : Ref .manager) (name : Value)
  /-- The factory of a module makes its code. -/
  | produce (factory : Value) (codes : List Value)
  deriving DecidableEq, Repr

instance : Inhabited Activity := ⟨.awaitValue .none⟩

end AsyncImport
