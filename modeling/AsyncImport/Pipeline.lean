import AsyncImport.Task.Await

/-!
# Pipelines

A pipeline threads a payload through its stages, always all of them and in order. A stage returns
the next payload, now or later, or nothing to keep the one it was given.
-/

namespace AsyncImport.Pipeline

open Edit Routine

def create (stages : Value) : Edit (Ref .pipeline) := do
  let ss ← items stages
  ss.forM fun s => do
    unless s.callable do throw (.stage (← shown s))
  Edit.create .pipeline { stages := ss }

def stageName (s : Value) : Quiet Value := do
  match s with
  | .host n => return .str n
  | .dataType t => return .str t.text
  | .library .transformStage => return .str "transform_stage"
  | .library .dependencyStage => return .str "dependency_stage"
  | .library .fetchStage => return .str "fetch_stage"
  | .library .compileStage => return .str "compile_stage"
  | _ => return .str (← shown s)

def runStage (context payload stage : Value) : Routine Value := do
  debug "pipeline.stage" [("stage", ← stageName stage)]
  match ← settleGiven (← callValue stage [context, payload]) with
  | .none => return payload
  | result => return result

def run (p : Ref .pipeline) (context payload : Value) : Routine Value := do
  (← Edit.read p).stages.foldlM (runStage context) payload

end AsyncImport.Pipeline
