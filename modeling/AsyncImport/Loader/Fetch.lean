import AsyncImport.Draft.Options
import AsyncImport.Loader.Events
import AsyncImport.Loader.Names
import AsyncImport.Task.Schedule

/-!
# Requesting modules

What a loader does at once when a name is requested or registered. Requests for a name in flight
share one future; the work itself is left to tasks.
-/

namespace AsyncImport

open Edit

def checkName (name : Value) : Quiet Unit := do
  unless name.isName do throw (.draft .noRequest)

namespace Loader

def delegate (l : Ref .loader) (name : Value) : Quiet Value := do
  let m ← managerOf l
  return .obj .delegate (← make .delegate { manager := m, name := name })

def checkCycle (l : Ref .loader) (name parent : Value) : Edit Unit := do
  let start ← key name
  let target ← key parent
  match (← read l).waits.path? start target with
  | none => return ()
  | some path =>
    let names := (target :: path).map fun
      | [.str s] => some s
      | _ => none
    if names.all Option.isSome then throw (.circular (names.filterMap id))
    else throw .typeMismatch

/-- Puts a name in flight: a task awaits the work and settles the name's record. -/
def track (l : Ref .loader) (name work : Value) (markLoaded report : Bool) : Edit Value := do
  let t ← spawn (.settle l name work markLoaded report)
  setItem l .loading name (.obj .future t)
  return .obj .future t

def loadPending (l : Ref .loader) (name : Value) : Edit Value := do
  if ← isIn l .pending name then
    let draft ← remove l name
    return .obj .future (← spawn (.loadDependencies l draft))
  else if ← Manager.has (← managerOf l) name then throw (.state (.alreadyBuilt (← spoken name)))
  else throw (.state (.notPending (← spoken name)))

/-- Requests the draft of a name, on behalf of another draft if one is given. The result is a future
of a delegate. -/
def fetch (l : Ref .loader) (name parent : Value) : Edit Value := do
  checkName name
  let m ← managerOf l
  if ← (Manager.has m name <||> isIn l .loaded name) then
    return .obj .future (← resolved (← delegate l name))
  match ← itemIn l .loading name with
  | some item =>
    unless parent = .none do checkCycle l name (← nameOf parent)
    return item
  | none =>
    if ← isIn l .pending name then
      track l name (← loadPending l name) true true
    else
      let parentName ← if ← truthy parent then nameOf parent else pure .none
      debug "loader.fetch" [("module", name), ("parent", parentName)]
      track l name (← suspended (.fetchDraft l name parent)) true true

/-- Requests the module of a name. The result is a future of the module. -/
def load (l : Ref .loader) (name parent : Value) : Edit Value := do
  checkName name
  let m ← managerOf l
  match ← Manager.find m name with
  | some module => return .obj .future (← resolved (.obj .module module))
  | none =>
    if ← (isIn l .loaded name <||> isIn l .pending name) then
      return .obj .future (← spawn (.buildReported l name))
    let fetching ← fetch l name parent
    return .obj .future (← spawn (.buildFetched l name fetching))

/-- Refuses what cannot be registered: a name that is known, dependencies that are no names, a factory
that cannot be called. -/
def checkRegistration (l : Ref .loader) (name deps factory : Value) : Quiet Unit := do
  if ← (Manager.has (← managerOf l) name <||> has l name) then
    throw (.state (.alreadyKnown (← spoken name)))
  match (← heap).sequence? deps with
  | some ds => unless ds.all fun d => d.str?.isSome do
      throw (.draft (.dependencies (← spoken name)))
  | none => throw (.draft (.dependencies (← spoken name)))
  unless factory.callable do throw (.draft (.factory (← spoken name)))

/-- Registers a factory under a name: ready to compile, or pending while it has dependencies. -/
def register (l : Ref .loader) (name deps factory : Value) : Edit (Ref .draft) := do
  checkRegistration l name deps factory
  let draft ← Draft.create name { deps := deps, factory := factory }
  let phase : Phase := if ← truthy (← read draft).deps then .pending else .loaded
  setItem l phase name (.obj .draft draft)
  debug "loader.register" [("module", name), ("deps", (← read draft).deps)]
  return draft

def anonymous : Value := .str "<anonymous>"

/-- Starts to transform a draft, or options in place. The result is a future of what was given. -/
def transform (l : Ref .loader) (given : Value) : Edit Value := do
  match given with
  | .obj .dict options =>
    let source := ((← read options).find? (Key.text "source")).bind Value.str?
    unless source.isSome do throw (.draft .nothingToTransform)
    unless (← read options).contains (Key.text "deps") do
      let deps ← newList []
      update options fun o => o.put (Key.text "deps") (.str "deps") deps
    let draft ← Draft.coerce given anonymous
    return .obj .future (← spawn (.transformOptions l options draft))
  | .obj .draft d =>
    let c ← read d
    unless c.source.str?.isSome do throw (.draft .nothingToTransform)
    if c.deps = .none then
      let deps ← newList []
      write d { c with deps := deps }
    return .obj .future (← spawn (.transformStage (← read l).manager given))
  | _ => throw (.draft .notADraft)

def startWaiting (l : Ref .loader) (name deps : Value) : Edit Unit := do
  let k ← key name
  update l fun c => { c with waits := c.waits.add k [] }
  (← items deps).forM fun d => do
    let j ← key d
    update l fun c => { c with waits := c.waits.add k [j] }

def stopWaiting (l : Ref .loader) (name : Value) : Edit Unit := do
  let k ← key name
  update l fun c => { c with waits := c.waits.remove k }

end Loader
end AsyncImport
