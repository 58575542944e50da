import AsyncImport.Edit

/-!
# Drafts and their options

A draft is made from options and can be written as options again. The keys of the fields are fixed;
all other keys are attributes of the draft.
-/

namespace AsyncImport

namespace Edit

def dictOf (v : Value) : Quiet Dict := do
  match (← heap).dict? v with
  | some d => return d
  | none =>
    (← items v).foldlM (fun (d : Dict) pair => do
      match ← items pair with
      | [k, x] => return d.put (← key k) k x
      | _ => throw (.plain .value)) {}

/-- A copy of the items of a list or tuple; nothing of any other value. -/
def copyOfSequence (v : Value) : Quiet Value := do
  newList (((← heap).sequence? v).getD [])

def copyIfAny (v : Value) : Quiet Value := do
  if ← truthy v then newList (← items v) else newList []

def formatOf (v : Value) : Quiet Value := do
  match v with
  | .format f => return .format f
  | .str s => match Format.ofText? s with
    | some f => return .format f
    | none => throw (.notAFormat (← shown v))
  | _ => throw (.notAFormat (← shown v))

end Edit

namespace Draft

open Edit

def setSource (d : Ref .draft) (v : Value) : Quiet Unit := do
  match v with
  | .str _ => alter d fun c => { c with content := .source v }
  | _ => throw (.draft (.sourceType ((← heap).typeName v)))

def setFactory (d : Ref .draft) (v : Value) : Quiet Unit := do
  if v.callable then alter d fun c => { c with content := .factory v }
  else throw (.draft (.factoryType ((← heap).typeName v)))

def setCode (d : Ref .draft) (v : Value) : Quiet Unit :=
  alter d fun c => { c with content := .code v }

/-- What a draft may be made with; an option that is absent has its default. -/
structure Options where
  path : Value := .none
  source : Value := .none
  code : Option Value := none
  factory : Value := .none
  deps : Value := .none
  plugins : Value := .none
  format : Value := .format .unknown
  referrer : Value := .none
  attributes : List (String × Value) := []

def fill (d : Ref .draft) (o : Options) : Quiet Unit := do
  unless o.source = .none do setSource d o.source
  unless o.factory = .none do setFactory d o.factory
  o.code.forM (setCode d)

def create (name : Value) (o : Options) : Quiet (Ref .draft) := do
  unless name.isName do throw (.draft .unnamed)
  let deps ← copyOfSequence o.deps
  let plugins ← copyIfAny o.plugins
  let format ← formatOf o.format
  let attributes ← newDict (Dict.ofTexts o.attributes)
  let d ← make .draft
    { name := name, path := o.path, deps := deps, plugins := plugins, format := format
      referrer := o.referrer, attributes := attributes }
  fill d o
  return d

def setAttribute (d : Ref .draft) (label v : Value) : Quiet Unit := do
  match (← read d).attributes with
  | .obj .dict r =>
    let k ← key label
    alter r (fun c => c.put k label v) Kind.isData_dict
  | _ => throw .typeMismatch

def setOption (d : Ref .draft) (label v : Value) : Edit Unit := do
  match label with
  | .str "content" => alter d fun c => { c with content := v }
  | .str "deps" =>
    let deps ← copyOfSequence v
    alter d fun c => { c with deps := deps }
  | .str "plugins" =>
    let plugins ← copyIfAny v
    alter d fun c => { c with plugins := plugins }
  | .str "type" =>
    let format ← formatOf v
    alter d fun c => { c with format := format }
  | .str "name" =>
    if v.isName then update d fun c => { c with name := v }
    else throw (.draft .renamed)
  | .str "path" => alter d fun c => { c with path := v }
  | .str "referrer" => alter d fun c => { c with referrer := v }
  | .str "source" => setSource d v
  | .str "code" => setCode d v
  | .str "factory" => setFactory d v
  | _ => setAttribute d label v

def toOptions (d : Ref .draft) : Quiet Dict := do
  let c ← read d
  let attributes ← dictOf c.attributes
  let deps ← newList (← items c.deps)
  let plugins ← newList (← items c.plugins)
  let fields : List (String × Value) :=
    [("name", c.name), ("path", c.path), ("deps", deps), ("plugins", plugins), ("type", c.format),
     ("referrer", c.referrer)]
  let content : List (String × Value) := match c.content with
    | .source text => [("source", text)]
    | .factory fn => [("factory", fn)]
    | .code v => [("code", v)]
    | _ => []
  return (fields ++ content).foldl (fun o e => o.put (Key.text e.1) (.str e.1) e.2) attributes

def configureFrom (d : Ref .draft) (options : Dict) : Edit Unit :=
  options.items.forM fun e => setOption d e.1 e.2

def configure (d : Ref .draft) (options : Value) : Edit (Ref .draft) := do
  match options with
  | .obj .draft other => configureFrom d (← toOptions other)
  | .obj .dict r => configureFrom d (← read r)
  | _ => throw .missing
  return d

/-- The draft that a value denotes: a draft, the name of one, or its options. -/
def coerce (v name : Value) : Edit (Ref .draft) := do
  match v with
  | .obj .draft d => return d
  | .str _ => create v {}
  | .obj .dict r =>
    let options ← read r
    let given := (options.find? (Key.text "name")).getD name
    let d ← create given {}
    configureFrom d (options.erase (Key.text "name"))
    return d
  | _ => throw (.draft (.notConvertible ((← heap).typeName v)))

def merge (d : Ref .draft) (result : Value) : Edit (Ref .draft) := do
  match result with
  | .none => return d
  | .obj .draft r => return r
  | .obj .dict _ => configure d result
  | _ => throw (.handlerResult (← spoken (← read d).name) ((← heap).typeName result))

def validate (d : Ref .draft) : Quiet Unit := do
  let c ← read d
  unless c.hasContent do throw (.draft (.empty (← spoken c.name)))

end Draft

namespace Module

open Edit

/-- What a module may be made with. -/
structure Options where
  format : Value := .format .unknown
  deps : Option Value := none
  code : Option Value := none
  factory : Value := .none
  settings : Value := .none

def create (name : Value) (o : Options) : Quiet (Ref .module) := do
  match name with
  | .str s =>
    if s.isEmpty then throw .moduleUnnamed
    let format ← formatOf o.format
    let deps ← newList (← match o.deps with
      | some v => items v
      | none => pure [])
    let settings ← newDict (← if ← truthy o.settings then dictOf o.settings else pure {})
    make .module
      { name := s, code := o.code, format := format, deps := deps, factory := o.factory
        settings := settings }
  | _ => throw .moduleUnnamed

def ofDraft (d : Ref .draft) : Quiet (Ref .module) := do
  let c ← read d
  let settings ← newDict (← Draft.toOptions d)
  create c.name
    { format := c.format, deps := some c.deps, factory := c.factory, settings := settings
      code := if c.isCompiled && c.factory = .none then some c.code else none }

def setCode (m : Ref .module) (v : Value) : Quiet Unit := do
  let c ← read m
  if c.hasCode then throw (.codeAlreadySet c.name)
  alter m fun c => { c with code := some v }

end Module
end AsyncImport
