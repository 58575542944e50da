import AsyncImport.Draft.Options
import AsyncImport.Plugin.Matching
import AsyncImport.Plugin.Registration

/-!
# Running hooks

A hook runs the handlers of every plugin that takes part, plugin after plugin and each in order of
registration, and threads the draft through their results. Which plugins take part is settled once,
before the first handler. The first fault ends the run.
-/

namespace AsyncImport

open Edit Routine

def asDraft (v : Value) : Quiet (Ref .draft) := do
  match v with
  | .obj .draft d => return d
  | _ => throw .missing

def handlerOfModule (name module : Value) : Quiet Value := do
  let h ← heap
  let f := match module with
    | .obj .module m => (h.get m).shownCode
    | .obj .draft d => (h.get d).code
    | v => v
  unless f.callable do throw (.plugin (.notAHandler (← spoken name)))
  return f

namespace Registry

def resolve (r : Ref .registry) (name : Value) : Routine Value := do
  match (← Edit.read r).resolver with
  | .none => raise (.plugin (.noResolver (← spoken name)))
  | f =>
    let module ← awaitGiven (← callValue f [name])
    handlerOfModule name module

def resolveNow (r : Ref .registry) (name : Value) : Routine Value := do
  match (← Edit.read r).directResolver with
  | .none => raise (.plugin (.noResolver (← spoken name)))
  | f =>
    let module ← callValue f [name]
    handlerOfModule name module

end Registry

namespace Plugin

def resolvingRegistry (p : Ref .plugin) (h : Handler) : Quiet (Ref .registry) := do
  match (← Edit.read p).registry with
  | .obj .registry r => return r
  | .none => throw (.plugin (.noRegistry (← spoken h.target)))
  | _ => throw .missing

def target (p : Ref .plugin) (h : Handler) : Routine Value := do
  if h.isNamed then Registry.resolve (← resolvingRegistry p h) h.target
  else return h.target

def targetNow (p : Ref .plugin) (h : Handler) : Routine Value := do
  if h.isNamed then Registry.resolveNow (← resolvingRegistry p h) h.target
  else return h.target

def logRun (p : Ref .plugin) (hook : Hook) (d : Ref .draft) : Quiet Unit := do
  debug "plugin.run"
    [("plugin", (← Edit.read p).name), ("hook", .str hook.text), ("module", (← Edit.read d).name)]

def runHandler (p : Ref .plugin) (hook : Hook) (draft : Value) (h : Handler) : Routine Value := do
  let f ← target p h
  let d ← asDraft draft
  logRun p hook d
  let result ← settleGiven (← callValue f [draft, h.options])
  return .obj .draft (← Draft.merge d result)

/-- Runs one handler on a draft; a result that is still to come is refused. -/
def runHandlerNow (p : Ref .plugin) (hook : Hook) (draft : Value) (h : Handler) :
    Routine Value := do
  let f ← targetNow p h
  let d ← asDraft draft
  logRun p hook d
  let result ← callValue f [draft, h.options]
  if result.isAwaitable then
    discard result
    raise (.plugin (.asynchronous (← spoken (← Edit.read p).name) hook.text))
  return .obj .draft (← Draft.merge d result)

def run (p : Ref .plugin) (hook draft : Value) : Routine Value := do
  let h ← Hook.parse hook
  ((← Edit.read p).handlersFor h).foldlM (runHandler p h) draft

def runNow (p : Ref .plugin) (hook draft : Value) : Routine Value := do
  let h ← Hook.parse hook
  ((← Edit.read p).handlersFor h).foldlM (runHandlerNow p h) draft

end Plugin

namespace Fanout

def selects (hook draft member : Value) : Routine Bool := do
  match member with
  | .obj .plugin p =>
    if (← Edit.read p).hasHandlers (← Hook.parse hook) then
      Plugin.takesPart p (← asDraft draft)
    else return false
  | _ => raise .missing

def selected (f : Ref .fanout) (draft : Value) : Routine (List (Ref .plugin)) := do
  let fanout ← Edit.read f
  let members ← fanout.plugins.filterM (selects fanout.hook draft)
  return members.filterMap fun
    | .obj .plugin p => some p
    | _ => none

def run (f : Ref .fanout) (draft : Value) : Routine Value := do
  let plugins ← selected f draft
  plugins.foldlM (fun d p => do Plugin.run p (← Edit.read f).hook d) draft

def runNow (f : Ref .fanout) (draft : Value) : Routine Value := do
  let plugins ← selected f draft
  plugins.foldlM (fun d p => do Plugin.runNow p (← Edit.read f).hook d) draft

end Fanout

namespace Registry

def run (r : Ref .registry) (hook draft : Value) : Routine Value := do
  Fanout.run (← fanoutFor r hook) draft

def runNow (r : Ref .registry) (hook draft : Value) : Routine Value := do
  Fanout.runNow (← fanoutFor r hook) draft

end Registry
end AsyncImport
