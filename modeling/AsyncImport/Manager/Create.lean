import AsyncImport.Loader.Events
import AsyncImport.Loader.Fetch
import AsyncImport.Plugin.Registration

/-!
# Managers

A manager is made with its providers, settings and event bus; what is left out is supplied.
-/

namespace AsyncImport

open Edit

namespace Loader

/-- The stages between the fetch and the loading of dependencies, and the last one. -/
def stages : List Value := [.library .transformStage, .library .dependencyStage]

def createFor (manager : Value) : Edit (Ref .loader) := do
  if manager = .none then throw .noManager
  let pipeline ← Edit.create .pipeline { stages := stages }
  let store ← Edit.create .store {}
  Edit.create .loader { manager := manager, pipeline := .obj .pipeline pipeline, store := store }

end Loader

def Settings.createDefault : Edit (Ref .settings) := do
  let ignore ← newDict {}
  Edit.create .settings { ignore := ignore }

namespace Manager

/-- What a manager may be made with; what is absent or null has its default. -/
structure Options where
  resolver : Value := .none
  fetcher : Value := .none
  compiler : Value := .none
  linker : Value := .none
  settings : Value := .none
  events : Value := .none

def provider (given : Value) (standIn : Procedure) : Edit Value := do
  if ← truthy given then return given else return .library standIn

def createRules (settings : Value) : Edit (Ref .rules) := do
  let ignore ← Edit.create .ignoreRules {}
  let rules ← Edit.create .rules { ignore := ignore }
  match settings with
  | .obj .settings s =>
    match (← heap).dict? (← read s).ignore with
    | some entries => entries.items.forM fun e => IgnoreRules.addFor ignore e.1 e.2
    | none => throw .missing
  | _ => throw .missing
  return rules

def create (o : Options) : Edit (Ref .manager) := do
  let self := (← heap).fresh .manager
  let settings ← match o.settings with
    | .none => do pure (Value.obj .settings (← Settings.createDefault))
    | v => pure v
  let events ← match o.events with
    | .none => do pure (Value.obj .bus (← Edit.create .bus {}))
    | v => pure v
  let resolver ← provider o.resolver .defaultResolve
  let fetcher ← provider o.fetcher .missingFetch
  let compiler ← provider o.compiler .missingCompile
  let linker ← provider o.linker .linkModule
  let rules ← createRules settings
  let plugins ← Registry.create (← readMethod .manager self .importModule)
    (← readMethod .manager self .require) (.library .globMatch)
  let loader ← Loader.createFor (.obj .manager self)
  Edit.create .manager
    { settings := settings, events := events, resolver := resolver, fetcher := fetcher
      compiler := compiler, linker := linker, rules := rules, plugins := plugins, loader := loader }

def observe (m : Ref .manager) : Edit Unit := do
  match (← read m).events with
  | .obj .bus b =>
    let route (id : String) (p : Procedure) : Edit Unit :=
      update b fun c => c.subscribe (Key.text id) (.library p) (.int 0)
    route Event.registration .observeRegistration
    route Event.failure .observeFailure
    route Event.link .observeLink
  | _ => throw .missing

/-- Registers a factory; the dependencies may be left out. -/
def register (m : Ref .manager) (name deps factory : Value) : Edit (Ref .draft) := do
  let l := (← read m).loader
  if factory = .none && deps.callable then Loader.register l name (← newList []) deps
  else Loader.register l name deps factory

def plugin (m : Ref .manager) (name definition : Value) : Edit Value := do
  let r := (← read m).plugins
  match (← heap).sequence? name with
  | some _ => newList ((← Registry.registerMany r name).map fun p => .obj .plugin p)
  | none => return .obj .plugin (← Registry.register r name definition)

end Manager
end AsyncImport
