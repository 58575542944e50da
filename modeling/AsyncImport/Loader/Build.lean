import AsyncImport.Loader.Fetch
import AsyncImport.Loader.Stages
import AsyncImport.Pipeline

/-!
# Loading and building

The activities of a loader. A draft is fetched, put through its stages and marked as loaded when all
of its dependencies have been; a loaded draft is compiled and linked without waiting.
-/

namespace AsyncImport

open Edit Routine

namespace Loader

def loadDependencies (l : Ref .loader) (draft : Value) : Routine Value := do
  let d ← asDraft draft
  let c ← Edit.read d
  unless ← truthy c.deps do return draft
  startWaiting l c.name c.deps
  ensuring
    (do
      let fetches ← (← items (← Edit.read d).deps).mapM fun dep => (fetch l dep draft : Edit Value)
      let _ ← result (← group fetches))
    (do stopWaiting l (← Edit.read d).name)
  return draft

/-- Puts a fetched draft through the transform and dependency stages. A compiled draft skips the
handlers, but its dependencies are loaded all the same. -/
def pipelineDraft (l : Ref .loader) (draft : Value) : Routine Value := do
  let d ← asDraft draft
  Draft.validate d
  if (← Edit.read d).isCompiled then perform (.loadDependencies l draft)
  else
    let loader ← Edit.read l
    match loader.pipeline with
    | .obj .pipeline p => Pipeline.run p loader.manager draft
    | _ => raise .missing

def fetchDraft (l : Ref .loader) (name parent : Value) : Routine Value := do
  let d ← Stage.fetch (← Edit.read l).manager name parent
  pipelineDraft l (.obj .draft d)

/-- Awaits the work for a name in flight and settles its record: the draft is loaded, or the record
is dropped. -/
def settle (l : Ref .loader) (name work : Value) (markLoaded report : Bool) : Routine Value := do
  let draft ← (awaitValue work).onFault fun e => do
    dropLoading l name
    if report && (← Edit.read e).ordinary then
      Manager.report (← managerOf l) name (.obj .failure e)
  if markLoaded then setItem l .loaded name draft
  else dropLoading l name
  delegate l name

def compile (l : Ref .loader) (name : Value) : Routine Value := do
  if ← isIn l .loaded name then
    let draft ← remove l name
    perform (.compileStage (← Edit.read l).manager draft)
  else if ← Manager.has (← managerOf l) name then
    raise (.state (.alreadyBuilt (← spoken name)))
  else raise (.state (.notCompilable (← spoken name)))

/-- Links a module and announces it. A module that is pending again has registered itself meanwhile,
which is reported. -/
def link (l : Ref .loader) (module : Value) : Routine Value := do
  match module with
  | .obj .module r =>
    let name := Value.str (← Edit.read r).name
    let m ← managerOf l
    if ← isIn l .pending name then Manager.reportRegistration m name
    let linked ← Manager.link m module
    Bus.emitOn (← Edit.read m).events (.str Event.link) (.linked (← nameOf linked))
    return linked
  | _ => raise (.state (.notAModule (← shown module)))

def buildNow (l : Ref .loader) (name : Value) : Routine Value := do
  link l (← compile l name)

/-- Compiles a loaded draft; when that registered the name again without dependencies, the
registration is compiled in its place. -/
def compileTwice (l : Ref .loader) (name : Value) : Routine (Option Value) := do
  unless ← isIn l .loaded name do return none
  let module ← compile l name
  unless ← isIn l .loaded name do return some module
  debug "loader.reregistered" [("module", name)]
  return some (← compile l name)

/-- Puts a pending registration in flight while its dependencies are loaded, which is left to the
result. -/
def startPending (l : Ref .loader) (name : Value) : Edit Value := do
  let registration ← loadPending l name
  let _ ← track l name registration false false
  return registration

/-- Builds the module of a name. A pending registration is built once its dependencies are loaded.
-/
def build (l : Ref .loader) (name : Value) : Routine Value := do
  let m ← managerOf l
  if let some module ← Manager.find m name then return .obj .module module
  if let some item ← itemIn l .loading name then
    let _ ← awaitValue item
    return ← perform (.build l name)
  let compiled ← compileTwice l name
  if ← isIn l .pending name then
    if compiled.isSome then Manager.reportRegistration m name
    let registration ← startPending l name
    let draft ← awaitValue registration
    link l (.obj .module (← Module.ofDraft (← asDraft draft)))
  else
    match compiled with
    | some module => link l module
    | none => raise (.state (.notFetched (← spoken name)))

def buildReported (l : Ref .loader) (name : Value) : Routine Value :=
  rescue (build l name) fun e => do
    Manager.report (← managerOf l) name (.obj .failure e)
    .fail e

def buildFetched (l : Ref .loader) (name fetching : Value) : Routine Value := do
  let _ ← awaitValue fetching
  buildReported l name

def transformOptions (l : Ref .loader) (options : Ref .dict) (draft : Ref .draft) :
    Routine Value := do
  let d ← Stage.transform (← Edit.read l).manager (.obj .draft draft)
  let fields ← Draft.toOptions d
  let named := (← Edit.read options).contains (Key.text "name")
  let fields := if named then fields else fields.erase (Key.text "name")
  Edit.alter options (fun o => fields.entries.foldl (fun o e => o.put e.1 e.2.1 e.2.2) o)
    Kind.isData_dict
  return .obj .dict options

end Loader

namespace Manager

def require (m : Ref .manager) (name : Value) : Routine Value := do
  if let some module ← find m name then return .obj .module module
  let l := (← Edit.read m).loader
  if ← Loader.isIn l .loaded name then Loader.buildNow l name
  else raise (.state (.notRequirable (← spoken name)))

def importNames (m : Ref .manager) (names : Value) : Routine Value := do
  let l := (← Edit.read m).loader
  match names with
  | .str _ => codeOf (← awaitValue (← Loader.load l names .none))
  | _ =>
    let loads ← (← items names).mapM fun n => (Loader.load l n .none : Edit Value)
    let modules ← result (← group loads)
    let codes ← (← items modules).mapM fun v => (codeOf v : Edit Value)
    newList codes

def importModule (m : Ref .manager) (name : Value) : Routine Value := do
  awaitValue (← Loader.load (← Edit.read m).loader name .none)

end Manager

namespace Linker

def dependency (manager dep : Value) : Routine Value := do
  perform (.require (← asManager manager) dep)

/-- Builds the dependencies of a module, calls its factory with their code, and caches the module.
What is no module is refused, a draft only when it comes to be cached. -/
def link (manager module : Value) : Routine Value := do
  match module with
  | .obj .module r =>
    let c ← Edit.read r
    let deps ← items c.deps
    if c.factory ≠ .none && !c.hasCode then
      let codes ← deps.mapM fun dep => do codeOf (← dependency manager dep)
      let code ← perform (.produce c.factory codes)
      Module.setCode r code
    else
      deps.forM fun dep => do let _ ← dependency manager dep
    Manager.cache (← asManager manager) module
    debug "linker.linked" [("module", .str c.name), ("deps", (← Edit.read r).deps)]
    return module
  | .obj .draft d =>
    let c ← Edit.read d
    unless c.factory = .none do raise (.noAttribute "has_code")
    (← items c.deps).forM fun dep => do let _ ← dependency manager dep
    Manager.cache (← asManager manager) module
    return module
  | _ => raise .missing

end Linker
end AsyncImport
