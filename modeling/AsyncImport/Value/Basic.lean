import AsyncImport.Number.Binary

/-!
# Values

What a host hands to the library and gets back. Plain data, functions and the small frozen records
are values by themselves; everything with an identity or a state of its own is an object, and a
value refers to it by kind and number.
-/

namespace AsyncImport

/-- The steps of loading at which plugins act, in the order in which a draft meets them. -/
inductive Hook where
  | fetch | transform | dependency | compile
  deriving DecidableEq, Repr, Inhabited

namespace Hook

def all : List Hook := [.fetch, .transform, .dependency, .compile]

def text : Hook → String
  | .fetch => "fetch"
  | .transform => "transform"
  | .dependency => "dependency"
  | .compile => "compile"

def ofText? (s : String) : Option Hook := all.find? fun h => h.text = s

def title : Hook → String
  | .fetch => "FETCH"
  | .transform => "TRANSFORM"
  | .dependency => "DEPENDENCY"
  | .compile => "COMPILE"

end Hook

/-- How a module is laid out; a hint for the providers that compile and link it. -/
inductive Format where
  | unknown | amd | cjs | iife
  deriving DecidableEq, Repr, Inhabited

namespace Format

def all : List Format := [.unknown, .amd, .cjs, .iife]

def text : Format → String
  | .unknown => "UNKNOWN"
  | .amd => "AMD"
  | .cjs => "CJS"
  | .iife => "IIFE"

def ofText? (s : String) : Option Format := all.find? fun f => f.text = s

end Format

/-- How far a name has come: in flight, known with dependencies to fetch, or ready to compile. -/
inductive Phase where
  | loading | pending | loaded
  deriving DecidableEq, Repr, Inhabited

namespace Phase

def all : List Phase := [.loading, .pending, .loaded]

def text : Phase → String
  | .loading => "loading"
  | .pending => "pending"
  | .loaded => "loaded"

def title : Phase → String
  | .loading => "LOADING"
  | .pending => "PENDING"
  | .loaded => "LOADED"

end Phase

/-- The types that a configuration field may ask for. -/
inductive DataType where
  | int | str | bool | float | list | dict
  deriving DecidableEq, Repr, Inhabited

def DataType.text : DataType → String
  | .int => "int"
  | .str => "str"
  | .bool => "bool"
  | .float => "float"
  | .list => "list"
  | .dict => "dict"

/-- The kinds of objects. -/
inductive Kind where
  | list | tuple | dict
  | draft | module
  | plugin | registry | fanout | matcher | ignoreRules | rules
  | bus | pipeline | store | loader | manager
  | settings | field
  | future | coroutine | failure | delegate | decorator | reading
  deriving DecidableEq, Repr

/-- A reference to an object of a kind. -/
structure Ref (kind : Kind) where
  id : Nat
  deriving DecidableEq, Repr, Inhabited

/-- The library's functions that a host may call by name or pass on as values. -/
inductive Procedure where
  | globMatch | awaitValue | coerceDraft | mergeResult | moduleOfDraft
  | parseHook | normalizeHandler | normalizeHandlers | patternList
  | validateTable | defaultTable | tableText | settingsOfTable | settingsOfFile | writeDefaults
  | readToml | writeToml | defaultResolve | missingFetch | missingCompile | linkModule
  | fetchStage | transformStage | dependencyStage | compileStage
  | observeRegistration | observeFailure | observeLink
  deriving DecidableEq, Repr

/-- The words for attributes, methods and named arguments. -/
inductive Word where
  | hasItem | hasItemIn | getItem | setItem | removeItem | getState | names
  | stages | run
  | subscribe | subscribePattern | unsubscribe | emit | on
  | name | path | content | deps | plugins | format | referrer | attributes
  | source | factory | code
  | isCompiled | canCompile | hasDependencies | validate | configure | toDict | hasCode | settings
  | text | fn | value
  | handler | options | isNamed
  | patterns | add | matches | clear
  | matchingRules | handlers | hasHandlers | addMatchingRules | addHandlers | canProcess | runSync
  | hook | use | pluginsFor | runAll | runAllSync
  | matchFunction | pipeline | get | create | register | registerMany | resolveHandler
  | resolveHandlerSync
  | dataType | default | description | min | max | choices
  | pluginDelimiter | logLevel | logFormat | ignore | setupLogging
  | manager | modules | load | fetch | transform | fetchDraft | pipelineDraft | loadDependencies
  | loadPending | compileDraft | linkModule | buildModule | buildAsync | hasModule | getModule
  | isLoading | getLoading | setLoading | isPending | getPending | setPending | isLoaded | getLoaded
  | setLoaded | removeModule
  | events | rules | loader | createMeta | resolve | compile | link | setModule | deleteModule
  | require | importNames | importModule | plugin | reportError
  | append | update | cancel
  | cycle | message | error
  -- words for named arguments only
  | state | item | eventId | event | callback | priority | pattern | context | payload | parent
  | draft | module | definition | definitions | stage | ruleName | registry | config | configData
  | schema | section_ | data | file | result
  deriving DecidableEq, Repr

inductive Value where
  | none
  | bool (b : Bool)
  | int (i : Int)
  | real (x : Binary)
  | str (s : String)
  | bytes (b : List UInt8)
  | dataType (t : DataType)
  /-- A date or a time: its type, its text in full and its text within other text. -/
  | moment (type shown spoken : String)
  | hook (h : Hook)
  | format (f : Format)
  | phase (p : Phase)
  /-- A function of the host. -/
  | host (name : String)
  /-- A function of the library. -/
  | library (p : Procedure)
  /-- A method of an object. Every reading of it off the object makes another value, which is equal to
  the earlier ones and not the same. -/
  | method (kind : Kind) (ref : Ref kind) (word : Word) (reading : Ref .reading)
  | obj (kind : Kind) (ref : Ref kind)
  /-- Content of a draft: text to transform and compile. -/
  | source (text : Value)
  /-- Content of a draft: a function that makes the module's code when it is linked. -/
  | factory (fn : Value)
  /-- Content of a draft: the module's code. -/
  | code (value : Value)
  /-- Content of a draft that has none. -/
  | pending
  /-- A handler of a plugin: a function, or the name of a module, and its options. -/
  | handler (target options : Value)
  /-- Event: a module was linked. -/
  | linked (name : Value)
  /-- Event: loading a module failed. -/
  | failed (name error : Value)
  /-- Event: a module registered itself while it was loaded. -/
  | registered (name : Value)
  deriving DecidableEq, Repr, Inhabited

def Event.registrationMessage : String :=
  "Module is being dynamically registered while being loaded"

namespace Value

abbrev list (r : Ref .list) : Value := .obj .list r
abbrev tuple (r : Ref .tuple) : Value := .obj .tuple r
abbrev dict (r : Ref .dict) : Value := .obj .dict r

def typeName : Value → String
  | .none => "NoneType"
  | .bool _ => "bool"
  | .int _ => "int"
  | .real _ => "float"
  | .str _ => "str"
  | .bytes _ => "bytes"
  | .dataType _ => "type"
  | .moment t _ _ => t
  | .hook _ => "HookType"
  | .format _ => "ModuleType"
  | .phase _ => "ItemState"
  | .host _ => "function"
  | .library _ => "function"
  | .method .. => "method"
  | .source _ => "Source"
  | .factory _ => "Factory"
  | .code _ => "Code"
  | .pending => "Pending"
  | .handler .. => "HandlerEntry"
  | .linked _ => "ModuleLinked"
  | .failed .. => "LoadFailure"
  | .registered _ => "DynamicRegistration"
  | .obj kind _ => match kind with
    | .list => "list"
    | .tuple => "tuple"
    | .dict => "dict"
    | .draft => "ModuleMeta"
    | .module => "Module"
    | .plugin => "Plugin"
    | .registry => "PluginRegistry"
    | .fanout => "HookPipeline"
    | .matcher => "RuleMatcher"
    | .ignoreRules => "IgnoreRules"
    | .rules => "Rules"
    | .bus => "EventBus"
    | .pipeline => "Pipeline"
    | .store => "StatefulItems"
    | .loader => "Loader"
    | .manager => "Manager"
    | .settings => "LoaderSettings"
    | .field => "ConfigField"
    | .future => "Future"
    | .coroutine => "coroutine"
    | .failure => "Exception"
    | .delegate => "partial"
    | .decorator => "function"
    | .reading => "method"

def callable : Value → Bool
  | .dataType _ | .host _ | .library _ | .method .. => true
  | .obj kind _ => kind = .delegate || kind = .decorator
  | _ => false

def str? : Value → Option String
  | .str s => some s
  | _ => Option.none

def isName : Value → Bool
  | .str s => !s.isEmpty
  | _ => false

end Value
end AsyncImport
