import AsyncImport.Edit

/-!
# Registering plugins, handlers and rules

Everything that a host registers is read in full before anything is stored, so that a registration
that is refused changes nothing.
-/

namespace AsyncImport

open Edit

/-- The hook that a value denotes: a hook itself, or the text of one. -/
def Hook.parse (v : Value) : Quiet Hook := do
  match v with
  | .hook h => return h
  | .str s => match Hook.ofText? s with
    | some h => return h
    | none => throw (.registration (.unknownHook s))
  | _ => throw (.registration (.unknownHook (← spoken v)))

/-- The patterns that a value denotes: one text, or the items of a collection of texts. -/
def patternList (v : Value) : Edit (List String) := do
  match v with
  | .str s => return [s]
  | _ =>
    match (← heap).items? v with
    | none => throw (.registration (.patterns (← shown v)))
    | some vs => vs.mapM fun p => do
      match p with
      | .str s => return s
      | _ => throw (.registration (.pattern (← shown p)))

namespace Handler

def isTarget (v : Value) : Bool := v.callable || v.isName

def toValue (h : Handler) : Value := .handler h.target h.options

def parse (v : Value) : Edit Handler := do
  match v with
  | .handler target options =>
    if isTarget target then return ⟨target, options⟩
    else throw (.registration .handler)
  | .obj .dict r =>
    let d ← read r
    let target := (d.find? (Key.text "handler")).getD .none
    if isTarget target then return ⟨target, (d.find? (Key.text "options")).getD .none⟩
    else throw (.registration .handler)
  | _ => if isTarget v then return ⟨v, .none⟩ else throw (.registration .handler)

/-- The handlers that a value denotes: those of a list or tuple, or one. -/
def parseAll (v : Value) : Edit (List Handler) := do
  match (← heap).sequence? v with
  | some vs => vs.mapM parse
  | none => return [← parse v]

end Handler

namespace Matcher

def create (patterns compare : Value) : Edit Matcher := do
  return ({ compare := compare } : Matcher).add (← patternList patterns)

end Matcher

namespace IgnoreRules

def addFor (r : Ref .ignoreRules) (stage patterns : Value) : Edit Unit := do
  let h ← Hook.parse stage
  update r fun c => c.touch h
  let ps ← patternList patterns
  update r fun c => c.add h ps

def clearFor (r : Ref .ignoreRules) (stage : Value) : Edit Unit := do
  match stage with
  | .none => update r fun c => c.clearAll
  | _ =>
    let h ← Hook.parse stage
    update r fun c => c.clear h

end IgnoreRules

namespace Plugin

def create (name registry : Value) : Edit (Ref .plugin) := do
  unless name = .none || name.isName do throw (.plugin (.name (← shown name)))
  Edit.create .plugin { name := name, registry := registry }

def comparison (p : Ref .plugin) : Edit Value := do
  match (← read p).registry with
  | .none => return .library .globMatch
  | .obj .registry r => match (← read r).compare with
    | .none => return .library .globMatch
    | v => return v
  | _ => throw .missing

def setMatcher (p : Ref .plugin) (rule : Value) (m : Matcher) : Edit Unit := do
  let k ← key rule
  update p fun c => c.setRule k ⟨rule, m⟩

def addMatchingRules (p : Ref .plugin) (rule patterns : Value) : Edit Unit := do
  let compare ← comparison p
  setMatcher p rule (← Matcher.create patterns compare)

/-- Adds handlers; with its first handler for a hook, a plugin takes part in that hook. -/
def addParsed (p : Ref .plugin) (h : Hook) (added : List Handler) : Edit Unit := do
  let before ← read p
  let after := before.addHandlers h added
  let count := (after.handlersFor h).length - (before.handlersFor h).length
  unless count = 0 do
    write p after
    if !before.handlers.contains h then
      match before.registry with
      | .none => pure ()
      | .obj .registry r =>
        match (← read r).fanout? h with
        | some f => update f fun c => c.use (.obj .plugin p)
        | none => throw (.plain .key)
      | _ => throw .missing
    debug "plugin.handlers_added"
      [("plugin", before.name), ("hook", .str h.text), ("count", .int count)]

def addHandlersFor (p : Ref .plugin) (hook handlers : Value) : Edit Unit := do
  let h ← Hook.parse hook
  addParsed p h (← Handler.parseAll handlers)

end Plugin

/-- A plugin's rules and handlers, as they are declared. -/
structure Definition where
  rules : List (Value × List String) := []
  handlers : Assoc Hook (List Handler) := {}

namespace Definition

def addEntry (d : Definition) (label v : Value) : Edit Definition := do
  if label = .str "match" then
    match (← heap).dict? v with
    | some entries =>
      let rules ← entries.items.mapM fun e => return (e.1, ← patternList e.2)
      return { d with rules := rules }
    | none => throw (.registration .rules)
  else
    let handlers ← Handler.parseAll v
    let h ← Hook.parse label
    return { d with handlers := d.handlers.insert h handlers }

def parse (v : Value) : Edit Definition := do
  match (← heap).dict? v with
  | some entries => entries.items.foldlM (fun (d : Definition) e => d.addEntry e.1 e.2) {}
  | none => throw (.registration (.definition ((← heap).typeName v)))

end Definition

namespace Registry

def create (resolver directResolver compare : Value) : Edit (Ref .registry) := do
  let fanouts ← Hook.all.mapM fun h => return (h, ← Edit.create .fanout { hook := .hook h })
  Edit.create .registry
    { compare := compare, resolver := resolver, directResolver := directResolver
      fanouts := fanouts }

def find (r : Ref .registry) (name : Value) : Edit (Option (Ref .plugin)) := do
  let _ ← key name
  return name.str?.bind (← read r).named.get?

/-- The plugin of a name, made when it is first asked for; a new one when no name is given. -/
def createPlugin (r : Ref .registry) (name : Value) : Edit (Ref .plugin) := do
  let known ← if name = .none then pure none else find r name
  match known with
  | some p => return p
  | none =>
    let p ← Plugin.create name (.obj .registry r)
    update r fun c => c.addPlugin name.str? p
    debug "plugin.created" [("plugin", name)]
    return p

def apply (r : Ref .registry) (name : Value) (d : Definition) : Edit (Ref .plugin) := do
  let p ← createPlugin r name
  d.rules.forM fun rule => do
    let compare ← Plugin.comparison p
    Plugin.setMatcher p rule.1 (({ compare := compare } : Matcher).add rule.2)
  d.handlers.entries.forM fun e => Plugin.addParsed p e.1 e.2
  return p

/-- Registers a definition under a name, or without one when the definition stands alone. -/
def register (r : Ref .registry) (name definition : Value) : Edit (Ref .plugin) := do
  let alone := ((← heap).dict? name).isSome && definition = .none
  let (name, definition) := if alone then (Value.none, name) else (name, definition)
  unless name = .none || name.str?.isSome do
    throw (.registration (.pluginName (← shown name)))
  let d ← if ← truthy definition then Definition.parse definition else pure {}
  apply r name d

def registerMany (r : Ref .registry) (definitions : Value) : Edit (List (Ref .plugin)) := do
  let ds ← items definitions
  ds.forM fun d => do
    let _ ← Definition.parse d
  ds.mapM fun d => register r d .none

def fanoutFor (r : Ref .registry) (hook : Value) : Quiet (Ref .fanout) := do
  let h ← Hook.parse hook
  match (← read r).fanout? h with
  | some f => return f
  | none => throw (.plain .key)

end Registry
end AsyncImport
