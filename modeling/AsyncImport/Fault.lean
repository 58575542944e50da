import AsyncImport.Value.Basic

/-!
# Faults

What can go wrong, by cause. `Fault.kind` is the class under which a host sees a fault and
`Fault.message` its text; faults of the language of values itself have no text of their own.
-/

namespace AsyncImport

/-- The classes of faults. -/
inductive FaultKind where
  | draft | module | moduleState | circular | fetch | compile | loader | manager
  | plugin | registration | subscription | pipeline | schema | validation | config | toml
  | value | type | runtime | os | general | attribute | decoding | cancelled | unfinished | key
  | unknownVariable | index | frozen | conversion | fileNotFound | isDirectory | notDirectory
  deriving DecidableEq, Repr

def FaultKind.text : FaultKind → String
  | .draft => "MetaError"
  | .module => "ModuleError"
  | .moduleState => "ModuleStateError"
  | .circular => "CircularDependencyError"
  | .fetch => "FetchError"
  | .compile => "CompileError"
  | .loader => "LoaderError"
  | .manager => "ManagerError"
  | .plugin => "PluginError"
  | .registration => "RegistrationError"
  | .subscription => "SubscriptionError"
  | .pipeline => "PipelineError"
  | .schema => "SchemaError"
  | .validation => "ValidationError"
  | .config => "ConfigError"
  | .toml => "TOMLError"
  | .value => "ValueError"
  | .type => "TypeError"
  | .runtime => "RuntimeError"
  | .os => "OSError"
  | .general => "Exception"
  | .attribute => "AttributeError"
  | .decoding => "UnicodeDecodeError"
  | .cancelled => "CancelledError"
  | .unfinished => "InvalidStateError"
  | .key => "KeyError"
  | .unknownVariable => "UnknownVariable"
  | .index => "IndexError"
  | .frozen => "FrozenInstanceError"
  | .conversion => "ConvertError"
  | .fileNotFound => "FileNotFoundError"
  | .isDirectory => "IsADirectoryError"
  | .notDirectory => "NotADirectoryError"

/-- Why a name could not be moved on. -/
inductive StateFault where
  | alreadyKnown (name : String)
  | alreadyBuilt (name : String)
  | notPending (name : String)
  | notCompilable (name : String)
  | notAModule (shown : String)
  | notFetched (name : String)
  | notRequirable (name : String)
  deriving DecidableEq, Repr

def StateFault.message : StateFault → String
  | .alreadyKnown n => s!"Module '{n}' is already loaded"
  | .alreadyBuilt n =>
    s!"Module `{n}` is already loaded, so you can just call `manager.get_module(name)`"
  | .notPending n => s!"Module meta `{n}` is not in a pending state"
  | .notCompilable n => s!"Module `{n}` is not loaded yet. Make sure to call `load` or `fetch` " ++
    "prior to calling `compile_module_meta`"
  | .notAModule s => s!"Module `{s}` is not an instance of Module"
  | .notFetched n =>
    s!"Module `{n}` is not loaded yet. Make sure to call `load` or `fetch` first"
  | .notRequirable n =>
    s!"Module `{n}` is not loaded. Use `import_` to load it before calling `require`"

/-- What is wrong with a draft or with what should become one. -/
inductive DraftFault where
  | unnamed
  | sourceType (type : String)
  | factoryType (type : String)
  | empty (name : String)
  | renamed
  | notConvertible (type : String)
  | noRequest
  | dependencies (name : String)
  | factory (name : String)
  | nothingToTransform
  | notADraft
  deriving DecidableEq, Repr

def DraftFault.message : DraftFault → String
  | .unnamed =>
    "Must provide a name, which is used by the resolver to create a location for the resource"
  | .sourceType t => s!"Module source must be a string. Got: {t}"
  | .factoryType t => s!"Module factory must be callable. Got: {t}"
  | .empty n => s!"ModuleMeta '{n}' must provide a `source` string or `code`."
  | .renamed => "Module meta name must be a non-empty string"
  | .notConvertible t => s!"Cannot create a module meta from {t}"
  | .noRequest => "Must provide the name of the module to load"
  | .dependencies n => s!"Module '{n}' dependencies must be a list of module names"
  | .factory n => s!"Module '{n}' factory must be callable"
  | .nothingToTransform =>
    "Must provide a source string property with the content to transform"
  | .notADraft => "Must provide a module meta object"

/-- What is wrong with a registration of plugins, handlers or rules. -/
inductive RegistrationFault where
  | handler
  | unknownHook (shown : String)
  | patterns (shown : String)
  | pattern (shown : String)
  | pluginName (shown : String)
  | definition (type : String)
  | rules
  deriving DecidableEq, Repr

def RegistrationFault.message : RegistrationFault → String
  | .handler => "Plugin handler must be a string, a function, or an object with a handler " ++
    "that is a string or a function"
  | .unknownHook s => s!"Unknown plugin hook '{s}'. Expected one of: " ++
    ", ".intercalate (Hook.all.map Hook.text)
  | .patterns s => s!"Matching rules must be a pattern or a list of patterns. Got: {s}"
  | .pattern s => s!"Matching rule pattern must be a string. Got: {s}"
  | .pluginName s => s!"Plugin name must be a string. Got: {s}"
  | .definition t => s!"Plugin definition must be a mapping. Got: {t}"
  | .rules => "Plugin 'match' must map rule names to lists of patterns"

/-- What goes wrong while plugins run. -/
inductive PluginFault where
  | name (shown : String)
  | asynchronous (plugin hook : String)
  | noRegistry (handler : String)
  | noResolver (handler : String)
  | notAHandler (module : String)
  deriving DecidableEq, Repr

def PluginFault.message : PluginFault → String
  | .name s => s!"Plugin name must be a non-empty string. Got: {s}"
  | .asynchronous p h => s!"Plugin '{p}' {h} handlers must be synchronous"
  | .noRegistry h => s!"Cannot resolve handler '{h}' without a registry"
  | .noResolver h => s!"Cannot resolve plugin handler '{h}': no resolver configured"
  | .notAHandler m => s!"Module '{m}' does not provide a callable plugin handler"

/-- Why a module could not be compiled. -/
inductive CompileFault where
  | asynchronous (name : String)
  | empty (name : String)
  | noProvider (name : String)
  deriving DecidableEq, Repr

def CompileFault.message : CompileFault → String
  | .asynchronous n => s!"Compile provider must be synchronous (module '{n}')"
  | .empty n => s!"Compiling module '{n}' did not produce code or a factory"
  | .noProvider n => s!"No compile provider configured to compile module '{n}'"

/-- Why a configuration field cannot be declared. -/
inductive SchemaFault where
  | default (shown type : String)
  | bounds (type : String)
  | choices
  | choice (shown type : String)
  | defaultChoice (shown choices : String)
  deriving DecidableEq, Repr

def SchemaFault.message : SchemaFault → String
  | .default s t => s!"Default value {s} does not match type {t}"
  | .bounds t => s!"min/max constraints only supported for str and list. Got {t}"
  | .choices => "choices must be a list"
  | .choice s t => s!"Choice {s} does not match type {t}"
  | .defaultChoice s c => s!"Default value {s} not in choices {c}"

/-- Why a configured value is refused. -/
inductive ValidationFault where
  | type (expected got : String)
  | choice (shown choices : String)
  | short (kind : String) (length minimum : String)
  | long (kind : String) (length maximum : String)
  | unknownField (name : String)
  | inField (name : String) (cause : ValidationFault)
  | ignored (cause : RegistrationFault)
  | section (name : String)
  deriving DecidableEq, Repr

def ValidationFault.message : ValidationFault → String
  | .type e g => s!"Expected type {e}, got {g}"
  | .choice s c => s!"Value {s} not in allowed choices {c}"
  | .short k l m => s!"{k} length {l} is less than minimum {m}"
  | .long k l m => s!"{k} length {l} is greater than maximum {m}"
  | .unknownField n => s!"Unknown configuration field: {n}"
  | .inField n cause => s!"Field '{n}': {cause.message}"
  | .ignored cause => s!"Field 'ignore': {cause.message}"
  | .section n => s!"[{n}] must be a table"

/-- Why a file cannot be read or written. -/
inductive FileFault where
  | notFound (path : String)
  | parse (path : String)
  | read (path detail : String)
  | write (path detail : String)
  deriving DecidableEq, Repr

def FileFault.message : FileFault → String
  | .notFound p => s!"TOML file not found: {p}"
  | .parse p => s!"Failed to parse TOML file {p}"
  | .read p d => s!"Failed to read TOML file {p}: {d}"
  | .write p d => s!"Failed to write TOML file {p}: {d}"

inductive Fault where
  | draft (cause : DraftFault)
  | moduleUnnamed
  | codeAlreadySet (name : String)
  | state (cause : StateFault)
  | circular (cycle : List String)
  | noFetch (name : String)
  | compile (cause : CompileFault)
  | noManager
  | notCacheable (type : String)
  | plugin (cause : PluginFault)
  | registration (cause : RegistrationFault)
  | subscriber (shown : String)
  | patternSubscriber (parameters : String)
  | stage (shown : String)
  | schema (cause : SchemaFault)
  | validation (cause : ValidationFault)
  | file (cause : FileFault)
  /-- A settings file that could not be used. -/
  | settingsFile (path detail : String)
  /-- A settings file that could not be written. -/
  | settingsOutput (cause : FileFault)
  | handlerResult (name type : String)
  | notAFormat (shown : String)
  | noAttribute (name : String)
  | logLevel (name : String)
  | logFormat (name : String)
  /-- Raised by the host. -/
  | raised (kind : FaultKind) (message : String)
  /-- A fault without a text of its own. -/
  | plain (kind : FaultKind)
  deriving DecidableEq, Repr

namespace Fault

def kind : Fault → FaultKind
  | .draft _ => .draft
  | .moduleUnnamed | .codeAlreadySet _ => .module
  | .state _ => .moduleState
  | .circular _ => .circular
  | .noFetch _ => .fetch
  | .compile _ => .compile
  | .noManager => .loader
  | .notCacheable _ => .manager
  | .plugin _ => .plugin
  | .registration _ => .registration
  | .subscriber _ | .patternSubscriber _ => .subscription
  | .stage _ => .pipeline
  | .schema _ => .schema
  | .validation _ => .validation
  | .file _ => .toml
  | .settingsFile .. | .settingsOutput _ => .config
  | .handlerResult .. => .type
  | .notAFormat _ | .logLevel _ | .logFormat _ => .value
  | .noAttribute _ => .attribute
  | .raised k _ => k
  | .plain k => k

def message? : Fault → Option String
  | .draft c => c.message
  | .moduleUnnamed => "Must provide a name to create the module"
  | .codeAlreadySet n => s!"Module '{n}' code is already set"
  | .state c => c.message
  | .circular c => "Circular dependency detected: " ++ " -> ".intercalate c
  | .noFetch n => s!"No fetch provider configured to load module '{n}'"
  | .compile c => c.message
  | .noManager => "Must provide a manager"
  | .notCacheable t => s!"Only Module instances can be cached. Got: {t}"
  | .plugin c => c.message
  | .registration c => c.message
  | .subscriber s => s!"Subscriber must be callable. Got: {s}"
  | .patternSubscriber ps =>
    s!"Pattern-based subscriber must have 'src' as first parameter. Got: {ps}"
  | .stage s => s!"Pipeline stage must be callable. Got: {s}"
  | .schema c => c.message
  | .validation c => c.message
  | .file c => c.message
  | .settingsFile p d => s!"Failed to load settings from {p}: {d}"
  | .settingsOutput c => c.message
  | .handlerResult n t =>
    s!"Handler for module '{n}' must return None, a ModuleMeta or a mapping. Got: {t}"
  | .notAFormat s => s!"{s} is not a valid ModuleType"
  | .noAttribute n => s!"'ModuleMeta' object has no attribute '{n}'"
  | .logLevel n => s!"Unknown log level: {n}"
  | .logFormat n => s!"Unknown log format: {n}. Expected one of ('console', 'json')"
  | .raised _ m => m
  | .plain _ => none

def message (f : Fault) : String := f.message?.getD ""

abbrev typeMismatch : Fault := .plain .type
abbrev missing : Fault := .plain .attribute
abbrev cancelled : Fault := .plain .cancelled

def isCircular : Fault → Bool
  | .circular _ => true
  | _ => false

/-- Whether a handler for ordinary faults sees this one; a cancellation passes it by. -/
def ordinary (f : Fault) : Bool := f.kind ≠ .cancelled

end Fault

/-- A fault that is not about a circle. -/
structure Refusal where
  fault : Fault
  straight : fault.isCircular = false

namespace Refusal

def draft (cause : DraftFault) : Refusal := ⟨.draft cause, rfl⟩
def moduleUnnamed : Refusal := ⟨.moduleUnnamed, rfl⟩
def codeAlreadySet (name : String) : Refusal := ⟨.codeAlreadySet name, rfl⟩
def state (cause : StateFault) : Refusal := ⟨.state cause, rfl⟩
def noFetch (name : String) : Refusal := ⟨.noFetch name, rfl⟩
def compile (cause : CompileFault) : Refusal := ⟨.compile cause, rfl⟩
def notCacheable (type : String) : Refusal := ⟨.notCacheable type, rfl⟩
def plugin (cause : PluginFault) : Refusal := ⟨.plugin cause, rfl⟩
def subscriber (shown : String) : Refusal := ⟨.subscriber shown, rfl⟩
def stage (shown : String) : Refusal := ⟨.stage shown, rfl⟩
def handlerResult (name type : String) : Refusal := ⟨.handlerResult name type, rfl⟩
def notAFormat (shown : String) : Refusal := ⟨.notAFormat shown, rfl⟩
def noAttribute (name : String) : Refusal := ⟨.noAttribute name, rfl⟩
def registration (cause : RegistrationFault) : Refusal := ⟨.registration cause, rfl⟩
def raised (kind : FaultKind) (message : String) : Refusal := ⟨.raised kind message, rfl⟩
def plain (kind : FaultKind) : Refusal := ⟨.plain kind, rfl⟩
def typeMismatch : Refusal := ⟨.typeMismatch, rfl⟩
def missing : Refusal := ⟨.missing, rfl⟩
def cancelled : Refusal := ⟨.cancelled, rfl⟩

@[simp] theorem fault_cancelled : cancelled.fault = .cancelled := rfl

end Refusal
end AsyncImport
