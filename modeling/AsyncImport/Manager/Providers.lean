import AsyncImport.Draft.Options
import AsyncImport.Loader.Events
import AsyncImport.Manager.Cache
import AsyncImport.Plugin.Run
import AsyncImport.Text.Split

/-!
# What a manager is given to work with

The providers that resolve, fetch, compile and link, with the ones that stand in for them, and the
draft that a requested name starts as.
-/

namespace AsyncImport

open Edit Routine

def asManager (v : Value) : Quiet (Ref .manager) := do
  match v with
  | .obj .manager m => return m
  | _ => throw .missing

/-- The parts of a name at a delimiter; without a delimiter, its words. -/
def nameParts (name delimiter : Value) : Quiet (List String) := do
  match name, delimiter with
  | .str s, .str d => if d.isEmpty then throw (.plain .value) else return Text.split d s
  | .str s, .none => return Text.words s
  | .str _, _ | .bytes _, _ => throw .typeMismatch
  | _, _ => throw .missing

namespace Manager

/-- The draft of a requested name. The parts before the last name plugins; the last is the target
that the default resolver goes by. -/
def createDraft (m : Ref .manager) (name parent : Value) : Quiet (Ref .draft) := do
  let delimiter ← match (← read m).settings with
    | .obj .settings s => pure (← read s).pluginDelimiter
    | _ => throw .missing
  let parts ← nameParts name delimiter
  match parts.getLast? with
  | none => throw (.plain .value)
  | some target =>
    let plugins ← newList ((parts.dropLast.filter fun p => !p.isEmpty).map Value.str)
    let referrer ← if parent = .none then pure .none else nameOf parent
    Draft.create name
      { plugins := plugins, referrer := referrer
        attributes := [("target", if target.isEmpty then name else .str target)] }

def resolve (m : Ref .manager) (draft : Value) : Routine Value := do
  callValue (← Edit.read m).resolver [draft]

def fetch (m : Ref .manager) (draft : Value) : Routine Value := do
  callValue (← Edit.read m).fetcher [draft]

def compile (m : Ref .manager) (draft : Value) : Routine Value := do
  callValue (← Edit.read m).compiler [.obj .manager m, draft]

/-- Hands a module to the link provider; without a result of its own, the module itself is linked.
-/
def link (m : Ref .manager) (module : Value) : Routine Value := do
  match ← callValue (← Edit.read m).linker [.obj .manager m, module] with
  | .none => return module
  | linked => return linked

def ignores (m : Ref .manager) (name : Value) (h : Hook) : Routine Bool := do
  let rules ← Edit.read (← Edit.read m).rules
  IgnoreRules.ignores (← Edit.read rules.ignore) name h

def runHook (m : Ref .manager) (h : Hook) (d : Ref .draft) : Routine (Ref .draft) := do
  asDraft (← Registry.run (← Edit.read m).plugins (.hook h) (.obj .draft d))

def runHookNow (m : Ref .manager) (h : Hook) (d : Ref .draft) : Routine (Ref .draft) := do
  asDraft (← Registry.runNow (← Edit.read m).plugins (.hook h) (.obj .draft d))

end Manager

/-- The default resolver: the path is the requested name without its plugins. -/
def defaultResolve (draft : Value) : Quiet Value := do
  let d ← read (← asDraft draft)
  match (← heap).dict? d.attributes with
  | some attributes =>
    newDict (Dict.ofTexts [("path", (attributes.find? (Key.text "target")).getD d.name)])
  | none => throw .missing

def missingFetch (draft : Value) : Quiet Value := do
  throw (.noFetch (← spoken (← nameOf draft)))

def missingCompile (draft : Value) : Quiet Value := do
  throw (.compile (.noProvider (← spoken (← nameOf draft))))

end AsyncImport
