import AsyncImport.Manager.Create
import AsyncImport.Pipeline
import AsyncImport.Config.Field
import AsyncImport.Session.Call

/-!
# Making objects

What a host can make, and with which arguments.
-/

namespace AsyncImport

open Edit

/-- What a host can make. -/
inductive Maker where
  | object (kind : Kind)
  | handler | source | factory | code | pending
  deriving DecidableEq, Repr

namespace Maker

def named? (w : Word) (named : List (Label × Value)) : Option Value :=
  (named.find? fun a => a.1.word = some w).map Prod.snd

def splitName (a : Arguments) : Edit (Value × List (Label × Value)) := do
  match a.items, (required .name).takeNamed a.named with
  | [n], (none, rest) => return (n, rest)
  | [], (some n, rest) => return (n, rest)
  | _, _ => throw .typeMismatch

/-- The words of a draft's own options; all others are attributes. -/
def draftWords : List Word :=
  [.path, .source, .code, .factory, .deps, .plugins, .format, .referrer]

def isAttribute (l : Label) : Bool :=
  match l.word with
  | some w => !draftWords.contains w
  | none => true

def makeDraft (a : Arguments) : Edit Value := do
  let (name, options) ← splitName a
  let option (w : Word) : Value := (named? w options).getD .none
  let attributes := (options.filter fun o => isAttribute o.1).map fun o => (o.1.text, o.2)
  return .obj .draft (← Draft.create name
    { path := option .path, source := option .source, code := named? .code options
      factory := option .factory, deps := option .deps, plugins := option .plugins
      format := (named? .format options).getD (.format .unknown), referrer := option .referrer
      attributes := attributes })

def moduleWords : List Word := [.format, .deps, .code, .factory, .settings]

def makeModule (a : Arguments) : Edit Value := do
  let (name, options) ← splitName a
  unless options.all fun o => o.1.word.any moduleWords.contains do throw .typeMismatch
  return .obj .module (← Module.create name
    { format := (named? .format options).getD (.format .unknown), deps := named? .deps options
      code := named? .code options, factory := (named? .factory options).getD .none
      settings := (named? .settings options).getD .none })

def managerParameters : List Parameter :=
  [nullable .resolve, nullable .fetch, nullable .compile, nullable .link, nullable .settings,
   nullable .events]

def makeManager (a : Arguments) : Edit Value := do
  let vs ← Parameter.bind managerParameters a.items a.named
  let m ← Manager.create
    { resolver := vs.getD 0 .none, fetcher := vs.getD 1 .none, compiler := vs.getD 2 .none
      linker := vs.getD 3 .none, settings := vs.getD 4 .none, events := vs.getD 5 .none }
  if (named? .events a.named).isNone then Manager.observe m
  return .obj .manager m

def fieldParameters : List Parameter :=
  [required .dataType, required .default, .withDefault .description (.str ""), nullable .min,
   nullable .max, nullable .choices]

def makeField (a : Arguments) : Edit Value := do
  let vs ← Parameter.bind fieldParameters a.items a.named
  return .obj .field (← FieldRecord.create
    { type := vs.getD 0 .none, default := vs.getD 1 .none, description := vs.getD 2 .none
      min := vs.getD 3 .none, max := vs.getD 4 .none, choices := vs.getD 5 .none })

def settingsParameters : List Parameter :=
  [.withDefault .pluginDelimiter (.str "!"), .withDefault .logLevel (.str "INFO"),
   .withDefault .logFormat (.str "console"), .withFresh .ignore (newDict {})]

def makeSettings (a : Arguments) : Edit Value := do
  let vs ← Parameter.bind settingsParameters a.items a.named
  return .obj .settings (← Edit.create .settings
    { pluginDelimiter := vs.getD 0 .none, logLevel := vs.getD 1 .none, logFormat := vs.getD 2 .none
      ignore := vs.getD 3 .none })

def fromNone (a : Arguments) (f : Edit Value) : Edit Value := do
  let _ ← Parameter.bind [] a.items a.named
  f

def fromOne (a : Arguments) (p : Parameter) (f : Value → Edit Value) : Edit Value := do
  let vs ← Parameter.bind [p] a.items a.named
  f (vs.getD 0 .none)

def fromTwo (a : Arguments) (p q : Parameter) (f : Value → Value → Edit Value) : Edit Value := do
  let vs ← Parameter.bind [p, q] a.items a.named
  f (vs.getD 0 .none) (vs.getD 1 .none)

def fromThree (a : Arguments) (p q r : Parameter) (f : Value → Value → Value → Edit Value) :
    Edit Value := do
  let vs ← Parameter.bind [p, q, r] a.items a.named
  f (vs.getD 0 .none) (vs.getD 1 .none) (vs.getD 2 .none)

def glob : Value := .library .globMatch

def make (m : Maker) (a : Arguments) : Edit Value :=
  match m with
  | .object .store => fromNone a do return .obj .store (← Edit.create .store {})
  | .object .bus => fromNone a do return .obj .bus (← Edit.create .bus {})
  | .object .pipeline => fromOne a (required .stages) fun ss => do
      return .obj .pipeline (← Pipeline.create ss)
  | .object .draft => makeDraft a
  | .object .module => makeModule a
  | .object .plugin => fromTwo a (nullable .name) (nullable .registry) fun n r => do
      return .obj .plugin (← Plugin.create n r)
  | .object .registry =>
      fromThree a (nullable .resolveHandler) (nullable .resolveHandlerSync)
        (.withDefault .matchFunction glob) fun f g c => do
          return .obj .registry (← Registry.create f g c)
  | .object .fanout => fromOne a (required .hook) fun h => do
      return .obj .fanout (← Edit.create .fanout { hook := h })
  | .object .matcher =>
      fromTwo a (.withFresh .patterns (newTuple [])) (.withDefault .matches glob) fun ps c => do
        return .obj .matcher (← Edit.create .matcher (← Matcher.create ps c))
  | .object .ignoreRules => fromOne a (.withDefault .matches glob) fun c => do
      return .obj .ignoreRules (← Edit.create .ignoreRules { compare := c })
  | .object .manager => makeManager a
  | .object .loader => fromOne a (required .manager) fun v => do
      return .obj .loader (← Loader.createFor v)
  | .object .field => makeField a
  | .object .settings => makeSettings a
  | .handler => fromTwo a (required .handler) (nullable .options) fun f o => do
      return .handler f o
  | .source => fromOne a (required .text) fun v => do return .source v
  | .factory => fromOne a (required .fn) fun v => do return .factory v
  | .code => fromOne a (required .value) fun v => do return .code v
  | .pending => fromNone a do return .pending
  | .object _ => throw .typeMismatch

end Maker
end AsyncImport
