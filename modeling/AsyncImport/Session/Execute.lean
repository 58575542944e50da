import AsyncImport.Session.Evaluate
import AsyncImport.Task.Machine

/-!
# Carrying out scripts

What actions and statements do, and what every activity of the library and of the host means.
-/

namespace AsyncImport

open Edit Routine

/-- Sets up a log and writes lines to it; the answer is its level and the lines that were not
dropped. -/
def writeLog (args : List Value) (setup : List Expr) (settings : Option Expr)
    (lines : List (Log.Severity × String × List (String × Expr))) : Edit Value := do
  let chosen ← match settings with
    | some e => match ← e.eval args with
      | .obj .settings s => Interface.logSetup s
      | _ => throw .missing
    | none => do
      let h ← heap
      match ← setup.mapM (Expr.eval args) with
      | [] => liftExcept (Log.setup (.str "INFO") (.str "console"))
      | [level] => liftExcept (Log.setup (h.data level) (.str "console"))
      | [level, format] => liftExcept (Log.setup (h.data level) (h.data format))
      | _ => throw .typeMismatch
  let written ← lines.mapM fun (severity, event, fields) => do
    let fields ← fields.mapM fun f => return (f.1, ← f.2.eval args)
    if fields.any fun f => f.1 = "event" then throw .typeMismatch
    let h ← heap
    return Log.line? chosen severity event (fields.map fun f => (f.1, h.data f.2))
  let shown ← ofAll (written.filterMap id)
  newDict (Dict.ofTexts [("level", .int chosen.level), ("lines", ← newList shown)])

namespace Action

def run (args : List Value) : Action → Routine Value
  | .make m a => (do m.make (← a.eval args) : Edit Value)
  | .callMember on l a => do
    let v ← on.eval args
    Routine.callMember v l (← a.eval args)
  | .callLibrary p a => do (libraryMethod p).call (← a.eval args)
  | .get on l => (do getMember (← on.eval args) l : Edit Value)
  | .set on l e => do
    let v ← on.eval args
    setMember v l (← e.eval args)
    return .none
  | .put on k e => do
    let container ← on.eval args
    let k ← k.eval args
    let v ← e.eval args
    match container with
    | .obj .dict r =>
      let key ← Edit.key k
      Edit.update r fun d => d.put key k v
      return .none
    | _ => raise .typeMismatch
  | .invoke f es => do
    let f ← f.eval args
    callWith f ⟨← Expr.evalAll args es, []⟩
  | .value e => e.eval args
  | .shown e => (do return .str (← Edit.shown (← e.eval args)) : Edit Value)
  | .length e => do
    let v ← e.eval args
    match (← heap).length? v with
    | some n => return .int n
    | none => raise .typeMismatch
  | .contains a b => (do
    let v ← a.eval args
    return .bool (← containsItem (← b.eval args) v) : Edit Value)
  | .equal a b => (Expr.equal a b).eval args
  | .identical a b => (do
    let v ← a.eval args
    return .bool (v = (← b.eval args)) : Edit Value)
  | .fileText p => (do AsyncImport.fileText (← p.eval args) : Edit Value)
  | .log setup settings lines => writeLog args setup settings lines

end Action

namespace Statement

mutual

/-- Carries out a statement; the answer is the result of the function if the statement ends it. -/
def run (args : List Value) : Statement → Routine (Option Value)
  | .result e => do return some (← e.eval args)
  | .raise k m => Routine.raise (.raised k m)
  | .branch c yes no => do
    if ← truthy (← c.eval args) then runAll args yes else runAll args no
  | .sleep n => do
    giveWayTimes n
    return none
  | .act a awaits name => do
    let v ← a.run args
    let v ← if awaits then awaitValue v else pure v
    keep name v
    return none

def runAll (args : List Value) : List Statement → Routine (Option Value)
  | [] => return none
  | s :: ss => do
    match ← run args s with
    | some v => return some v
    | none => runAll args ss

end

end Statement

/-- Carries out a function of the host. The call is noted first, even if the arguments do not fit.
-/
def Function.run (name : String) (f : Function) (args : List Value) : Routine Value := do
  let h ← heap
  note (.call name (args.map h.briefView))
  unless f.signature.parameters.all fun ps => ps.length = args.length do raise .typeMismatch
  return (← Statement.runAll args f.body).getD .none

abbrev Host := String → List Value → Routine Value

def Host.ofScripts (functions : Assoc String Function) : Host := fun n args =>
  match functions.get? n with
  | some f => f.run n args
  | none => raise .typeMismatch

def Host.meaning (host : Host) (activity : Activity) : Routine Value :=
  match activity with
  | .host n args => host n args
  | .invoke f args => callWith f ⟨args, []⟩
  | .awaitValue v => settled v
  | .runStages p context payload => Pipeline.run p context payload
  | .runPlugin p hook draft => Plugin.run p hook draft
  | .runFanout f draft => Fanout.run f draft
  | .runRegistry r hook draft => Registry.run r hook draft
  | .resolveHandler r name => Registry.resolve r name
  | .fetchStage m name parent => return .obj .draft (← Stage.fetch m name parent)
  | .transformStage m draft => return .obj .draft (← Stage.transform m draft)
  | .dependencyStage m draft => do
    let d ← Stage.dependencies m draft
    perform (.loadDependencies (← Edit.read (← asManager m)).loader (.obj .draft d))
  | .compileStage m draft => Stage.compile m draft
  | .fetchDraft l name parent => Loader.fetchDraft l name parent
  | .pipelineDraft l draft => Loader.pipelineDraft l draft
  | .loadDependencies l draft => Loader.loadDependencies l draft
  | .transformOptions l options draft => Loader.transformOptions l options draft
  | .buildFetched l name fetching => Loader.buildFetched l name fetching
  | .buildReported l name => Loader.buildReported l name
  | .build l name => Loader.build l name
  | .buildNow l name => Loader.buildNow l name
  | .link l module => Loader.link l module
  | .settle l name work markLoaded report => Loader.settle l name work markLoaded report
  | .importNames m names => Manager.importNames m names
  | .importModule m name => Manager.importModule m name
  | .require m name => Manager.require m name
  | .produce f codes => callWith f ⟨codes, []⟩

def meaning (functions : Assoc String Function) : Meaning := (Host.ofScripts functions).meaning

end AsyncImport
