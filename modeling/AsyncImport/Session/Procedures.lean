import AsyncImport.Config.Settings
import AsyncImport.Loader.Build
import AsyncImport.Plugin.Run
import AsyncImport.Session.Call

/-!
# The library's functions

What a host may call by name or pass on as a value, with the parameters of each.
-/

namespace AsyncImport

open Edit

def mergeResult (draft result : Value) : Edit Value := do
  match draft, result with
  | _, .none => return draft
  | _, .obj .draft r => return .obj .draft r
  | .obj .draft d, _ => return .obj .draft (← Draft.merge d result)
  | _, .obj .dict _ => throw .missing
  | _, _ => throw (.handlerResult (← spoken (← nameOf draft)) ((← heap).typeName result))

def observed (id : String) (event : Value) (detail : Option View) : Quiet Value := do
  let name ← nameOf event
  let h ← heap
  note (.event id (h.briefView name) detail)
  return .none

def observeFailure (event : Value) : Quiet Value := do
  match event with
  | .failed _ e => observed Event.failure event (some (.str ((← heap).typeName e)))
  | _ =>
    let _ ← nameOf event
    throw .missing

def observeRegistration (event : Value) : Quiet Value := do
  match event with
  | .registered _ => observed Event.registration event (some (.str Event.registrationMessage))
  | _ =>
    let _ ← nameOf event
    throw .missing

def libraryMethod : Procedure → Method
  | .globMatch => .two (required .value) (required .pattern) fun v p => answer (globMatch v p)
  | .awaitValue => .one (required .value) fun v => later (.awaitValue v)
  | .coerceDraft => .two (required .value) (labelled .name) fun v n =>
      return .obj .draft (← Draft.coerce v n)
  | .mergeResult => .two (required .draft) (required .result) fun d r => mergeResult d r
  | .moduleOfDraft => .one (required .draft) fun d =>
      return .obj .module (← Module.ofDraft (← asDraft d))
  | .parseHook => .one (required .hook) fun v => return .hook (← Hook.parse v)
  | .normalizeHandler => .one (required .item) fun v => return (← Handler.parse v).toValue
  | .normalizeHandlers => .one (required .handlers) fun v => do
      newList ((← Handler.parseAll v).map Handler.toValue)
  | .patternList => .one (required .patterns) fun v => do newList ((← patternList v).map .str)
  | .validateTable => .two (required .config) (required .schema) fun t s => validateTable t s
  | .defaultTable => .one (required .schema) fun s => defaultTable s
  | .tableText => .three (required .section_) (required .schema) (required .configData) fun n s c =>
      return .str (← tableText n s c)
  | .settingsOfTable => .one (required .data) fun v => return .obj .settings (← Settings.ofTable v)
  | .settingsOfFile => .one (required .path) fun v => return .obj .settings (← Settings.ofFile v)
  | .writeDefaults => .one (required .path) fun v => nothing (Settings.writeDefaults v)
  | .readToml => .one (required .file) fun v => readToml v
  | .writeToml => .two (required .file) (required .content) fun v c => nothing (writeToml v c)
  | .defaultResolve => .one (required .draft) fun d => defaultResolve d
  | .missingFetch => .one (required .draft) fun d => missingFetch d
  | .missingCompile => .two (required .manager) (required .draft) fun _ d => missingCompile d
  | .linkModule => .two (required .manager) (required .module) fun m v => Linker.link m v
  | .fetchStage => .three (required .manager) (required .name) (nullable .parent) fun m n p =>
      later (.fetchStage m n p)
  | .transformStage => .two (required .manager) (required .draft) fun m d =>
      later (.transformStage m d)
  | .dependencyStage => .two (required .manager) (required .draft) fun m d =>
      later (.dependencyStage m d)
  | .compileStage => .two (required .manager) (required .draft) fun m d => Stage.compile m d
  | .observeRegistration => .one (required .event) fun e => observeRegistration e
  | .observeFailure => .one (required .event) fun e => observeFailure e
  | .observeLink => .one (required .event) fun e => observed Event.link e none

end AsyncImport
