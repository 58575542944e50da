import AsyncImport.Config.Settings
import AsyncImport.Draft.Options
import AsyncImport.Event.Emit
import AsyncImport.Log
import AsyncImport.Loader.Events
import AsyncImport.Pipeline
import AsyncImport.Session.Call
import AsyncImport.Task.Schedule

/-!
# The members of plain objects

Containers, drafts, modules, stores, pipelines, buses, the records of the configuration, and
futures.
-/

namespace AsyncImport.Interface

open Edit

def field {k : Kind} (r : Ref k) (w : Word) (get : Cell k → Value) (set : Value → Cell k → Cell k) :
    (Word × Edit Value) × (Word × (Value → Edit Unit)) :=
  ((w, return get (← read r)), (w, fun v => update r (set v)))

def ofList (r : Ref .list) : Interface where
  methods :=
    [(.append, .one (required .item) fun v => nothing (Edit.update r fun vs => vs ++ [v]))]

def ofDict (r : Ref .dict) : Interface where
  methods :=
    [(.update, .one (required .item) fun v => nothing do
        let added ← dictOf v
        Edit.update r fun d => added.entries.foldl (fun d e => d.put e.1 e.2.1 e.2.2) d)]

def ofFuture (f : Ref .future) : Interface where
  methods := [(.cancel, .none (answer (Edit.cancel f)))]

def ofStore (s : Ref .store) : Interface where
  methods :=
    [(.hasItem, .one (required .name) fun n => answer do
        return (← Edit.read s).contains (← key n)),
     (.hasItemIn, .two (required .state) (required .name) fun p n => answer do
        return (← Edit.read s).holds p (← key n)),
     (.getItem, .two (required .state) (required .name) fun p n => do
        return ((← Edit.read s).get? p (← key n)).getD .none),
     (.setItem, .three (required .state) (required .name) (required .item) fun p n v => do
        let k ← key n
        Edit.update s fun c => c.set p k n v
        return v),
     (.removeItem, .one (required .name) fun n => do
        let k ← key n
        let item := (← Edit.read s).item? k
        Edit.update s fun c => c.remove k
        return item.getD .none),
     (.getState, .one (required .name) fun n => do
        return ((← Edit.read s).phase? (← key n)).getD .none),
     (.names, .one (nullable .state) fun p => do
        let c ← Edit.read s
        newList (if p = .none then c.names else c.namesIn p))]

def ofPipeline (p : Ref .pipeline) : Interface where
  attributes := [(.stages, do newTuple (← read p).stages)]
  methods :=
    [(.run, .two (required .context) (required .payload) fun context payload =>
        later (.runStages p context payload))]

def ofBus (b : Ref .bus) : Interface where
  methods :=
    [(.subscribe, .three (required .eventId) (required .callback) (.withDefault .priority (.int 0))
        fun id f p => Bus.subscribeTo b id f p),
     (.subscribePattern,
        .three (required .pattern) (required .callback) (.withDefault .priority (.int 0))
          fun pattern f p => Bus.subscribeToPattern b pattern f p),
     (.unsubscribe, .one (required .callback) fun f => return .int (← Bus.drop b f)),
     (.emit, .two (required .eventId) (required .event) fun id e =>
        return .int (← Bus.emit b id e)),
     (.on, .two (required .eventId) (.withDefault .priority (.int 0)) fun id p => do
        return .obj .decorator (← Edit.create .decorator { bus := b, id := id, priority := p }))]

def ofDraft (d : Ref .draft) : Interface :=
  let fields :=
    [field d .name Draft.name fun v c => { c with name := v },
     field d .path Draft.path fun v c => { c with path := v },
     field d .content Draft.content fun v c => { c with content := v },
     field d .deps Draft.deps fun v c => { c with deps := v },
     field d .plugins Draft.plugins fun v c => { c with plugins := v },
     field d .format Draft.format fun v c => { c with format := v },
     field d .referrer Draft.referrer fun v c => { c with referrer := v },
     field d .attributes Draft.attributes fun v c => { c with attributes := v }]
  let contents : List (Word × (Value → Edit Unit)) :=
    [(.source, fun v => Draft.setSource d v), (.factory, fun v => Draft.setFactory d v),
     (.code, fun v => Draft.setCode d v)]
  { attributes := fields.map Prod.fst ++
      [(.source, return (← read d).source), (.factory, return (← read d).factory),
       (.code, return (← read d).code), (.isCompiled, return .bool (← read d).isCompiled),
       (.canCompile, return .bool (← read d).canCompile),
       (.hasDependencies, do return .bool (← truthy (← read d).deps))]
    setters := fields.map Prod.snd ++ contents
    methods :=
      [(.validate, .none (nothing (Draft.validate d))),
       (.configure, .one (required .options) fun v => return .obj .draft (← Draft.configure d v)),
       (.toDict, .none do newDict (← Draft.toOptions d))] }

def ofModule (m : Ref .module) : Interface :=
  let fields :=
    [field m .format Module.format fun v c => { c with format := v },
     field m .deps Module.deps fun v c => { c with deps := v },
     field m .factory Module.factory fun v c => { c with factory := v },
     field m .settings Module.settings fun v c => { c with settings := v }]
  let code : List (Word × (Value → Edit Unit)) := [(.code, fun v => Module.setCode m v)]
  { attributes := fields.map Prod.fst ++
      [(.name, return .str (← read m).name), (.hasCode, return .bool (← read m).hasCode),
       (.code, return (← read m).shownCode)]
    setters := fields.map Prod.snd ++ code }

def logSetup (s : Ref .settings) : Edit Log.Setup := do
  let c ← read s
  let h ← heap
  liftExcept (Log.setup (h.data c.logLevel) (h.data c.logFormat))

def ofSettings (s : Ref .settings) : Interface :=
  let fields :=
    [field s .pluginDelimiter Settings.pluginDelimiter fun v c => { c with pluginDelimiter := v },
     field s .logLevel Settings.logLevel fun v c => { c with logLevel := v },
     field s .logFormat Settings.logFormat fun v c => { c with logFormat := v },
     field s .ignore Settings.ignore fun v c => { c with ignore := v }]
  { attributes := fields.map Prod.fst
    setters := fields.map Prod.snd
    methods :=
      [(.setupLogging, .none (nothing (discard (logSetup s)))),
       (.toDict, .none (Settings.toTable s))] }

def ofField (f : Ref .field) : Interface :=
  let fields :=
    [field f .dataType FieldRecord.type fun v c => { c with type := v },
     field f .default FieldRecord.default fun v c => { c with default := v },
     field f .description FieldRecord.description fun v c => { c with description := v },
     field f .min FieldRecord.min fun v c => { c with min := v },
     field f .max FieldRecord.max fun v c => { c with max := v },
     field f .choices FieldRecord.choices fun v c => { c with choices := v }]
  { attributes := fields.map Prod.fst
    setters := fields.map Prod.snd
    methods := [(.validate, .one (required .value) fun v => nothing (FieldRecord.validate f v))] }

def ofFailure (e : Ref .failure) : Interface where
  attributes :=
    [(.cycle, do
        match ← read e with
        | .circular names => newList (names.map .str)
        | _ => throw .missing)]

def ofPlain (v : Value) : Interface where
  attributes := match v with
    | .hook h => [(.name, return .str h.title), (.value, return .str h.text)]
    | .format f => [(.name, return .str f.text), (.value, return .str f.text)]
    | .phase p => [(.name, return .str p.title), (.value, return .str p.text)]
    | .source t => [(.text, return t)]
    | .factory f => [(.fn, return f)]
    | .code c => [(.value, return c)]
    | .handler target options =>
      [(.handler, return target), (.options, return options),
       (.isNamed, return .bool target.str?.isSome)]
    | .linked n => [(.name, return n)]
    | .failed n e => [(.name, return n), (.error, return e)]
    | .registered n => [(.name, return n), (.message, return .str Event.registrationMessage)]
    | _ => []
  setters := match v with
    | .source _ => [(.text, frozen)]
    | .factory _ => [(.fn, frozen)]
    | .code _ => [(.value, frozen)]
    | .handler .. => [(.handler, frozen), (.options, frozen)]
    | .linked _ => [(.name, frozen)]
    | .failed .. => [(.name, frozen), (.error, frozen)]
    | .registered _ => [(.name, frozen), (.message, frozen)]
    | _ => []
where
  frozen (_ : Value) : Edit Unit := throw (.plain .frozen)

end AsyncImport.Interface
