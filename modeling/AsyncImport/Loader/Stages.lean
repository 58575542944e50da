import AsyncImport.Loader.Names
import AsyncImport.Manager.Providers

/-!
# The stages of a draft

Fetching finds the content of a draft, transforming changes it, and compiling makes a module of it.
Names that the manager ignores for a stage skip the plugins of that stage, and for fetching the
provider too.
-/

namespace AsyncImport

open Edit Routine

namespace Stage

def fetch (manager name parent : Value) : Routine (Ref .draft) := do
  let m ← asManager manager
  let d ← Manager.createDraft m name parent
  let d ← Draft.merge d (← settleGiven (← Manager.resolve m (.obj .draft d)))
  let c ← Edit.read d
  debug "stage.fetch" [("module", c.name), ("path", c.path)]
  if c.hasContent then return d
  if ← Manager.ignores m c.name .fetch then return d
  let d ← Manager.runHook m .fetch d
  if (← Edit.read d).hasContent then return d
  Draft.merge d (← settleGiven (← Manager.fetch m (.obj .draft d)))

def transform (manager draft : Value) : Routine (Ref .draft) := do
  let d ← asDraft draft
  let name := (← Edit.read d).name
  debug "stage.transform" [("module", name)]
  let m ← asManager manager
  if ← Manager.ignores m name .transform then return d
  Manager.runHook m .transform d

def dependencies (manager draft : Value) : Routine (Ref .draft) := do
  let d ← asDraft draft
  let c ← Edit.read d
  debug "stage.dependency" [("module", c.name)]
  if c.isCompiled then return d
  let m ← asManager manager
  if ← Manager.ignores m c.name .dependency then return d
  Manager.runHook m .dependency d

/-- Makes a module of a draft whose compile handlers have run: of what they made of it, or from what
the compile provider gives. A provider that gives nothing may have registered the module instead. -/
def moduleOf (m : Ref .manager) (d : Ref .draft) : Routine Value := do
  let c ← Edit.read d
  if c.isCompiled then return .obj .module (← Module.ofDraft d)
  let result ← Manager.compile m (.obj .draft d)
  match result with
  | .obj .module r => return .obj .module r
  | _ =>
    if result.isAwaitable then
      discard result
      raise (.compile (.asynchronous (← spoken (← Edit.read d).name)))
    let d ← Draft.merge d result
    let c ← Edit.read d
    if c.isCompiled || (← Loader.has (← Edit.read m).loader c.name) then
      return .obj .module (← Module.ofDraft d)
    raise (.compile (.empty (← spoken c.name)))

def compile (manager draft : Value) : Routine Value := do
  let d ← asDraft draft
  let name := (← Edit.read d).name
  debug "stage.compile" [("module", name)]
  let m ← asManager manager
  let d ← if ← Manager.ignores m name .compile then pure d else Manager.runHookNow m .compile d
  moduleOf m d

end Stage
end AsyncImport
