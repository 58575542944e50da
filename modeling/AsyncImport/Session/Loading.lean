import AsyncImport.Loader.Build
import AsyncImport.Manager.Create
import AsyncImport.Session.Call

/-!
# The members of managers and loaders
-/

namespace AsyncImport.Interface

open Edit

def moduleValue : Option (Ref .module) → Value
  | some m => .obj .module m
  | none => .none

/-- The members for one phase: whether a name is in it, its item there, and how to set it. -/
def phaseMembers (l : Ref .loader) (p : Phase) (askWord readWord writeWord : Word) :
    List (Word × Method) :=
  [(askWord, .one (required .name) fun n => answer (Loader.isIn l p n)),
   (readWord, .one (required .name) fun n => return (← Loader.itemIn l p n).getD .none),
   (writeWord, .two (required .name) (required .item) fun n v => do
      Loader.setItem l p n v
      return v)]

def ofLoader (l : Ref .loader) : Interface where
  attributes :=
    [(.manager, return (← read l).manager), (.pipeline, return (← read l).pipeline),
     (.modules, return .obj .store (← read l).store)]
  setters :=
    [(.manager, fun v => update l fun c => { c with manager := v }),
     (.pipeline, fun v => update l fun c => { c with pipeline := v })]
  methods :=
    [(.load, .two (required .name) (nullable .parent) fun n p => Loader.load l n p),
     (.fetch, .two (required .name) (nullable .parent) fun n p => Loader.fetch l n p),
     (.register, .three (required .name) (required .deps) (required .factory) fun n ds f =>
        return .obj .draft (← Loader.register l n ds f)),
     (.transform, .one (required .draft) fun d => Loader.transform l d),
     (.fetchDraft, .two (required .name) (nullable .parent) fun n p => later (.fetchDraft l n p)),
     (.pipelineDraft, .one (required .draft) fun d => later (.pipelineDraft l d)),
     (.loadDependencies, .one (required .draft) fun d => later (.loadDependencies l d)),
     (.loadPending, .one (required .name) fun n => Loader.loadPending l n),
     (.compileDraft, .one (required .name) fun n => Loader.compile l n),
     (.linkModule, .one (required .module) fun m => Routine.perform (.link l m)),
     (.buildModule, .one (required .name) fun n => Routine.perform (.buildNow l n)),
     (.buildAsync, .one (required .name) fun n => later (.buildReported l n)),
     (.hasModule, .one (required .name) fun n => answer (Loader.has l n)),
     (.getModule, .one (required .name) fun n => do
        return ((← Loader.storeOf l).item? (← key n)).getD .none),
     (.removeModule, .one (required .name) fun n => Loader.remove l n)] ++
    phaseMembers l .loading .isLoading .getLoading .setLoading ++
    phaseMembers l .pending .isPending .getPending .setPending ++
    phaseMembers l .loaded .isLoaded .getLoaded .setLoaded

def ofManager (m : Ref .manager) : Interface where
  attributes :=
    [(.settings, return (← read m).settings), (.events, return (← read m).events),
     (.rules, return .obj .rules (← read m).rules),
     (.plugins, return .obj .registry (← read m).plugins),
     (.loader, return .obj .loader (← read m).loader)]
  setters :=
    [(.settings, fun v => update m fun c => { c with settings := v }),
     (.events, fun v => update m fun c => { c with events := v })]
  methods :=
    [(.createMeta, .two (required .name) (nullable .parent) fun n p =>
        return .obj .draft (← Manager.createDraft m n p)),
     (.resolve, .one (required .draft) fun d => Manager.resolve m d),
     (.fetch, .one (required .draft) fun d => Manager.fetch m d),
     (.compile, .one (required .draft) fun d => Manager.compile m d),
     (.link, .one (required .module) fun v => Manager.link m v),
     (.hasModule, .one (required .name) fun n => answer (Manager.has m n)),
     (.getModule, .one (required .name) fun n => return moduleValue (← Manager.find m n)),
     (.setModule, .one (required .module) fun v => do
        Manager.cache m v
        return v),
     (.deleteModule, .one (required .name) fun n => return moduleValue (← Manager.delete m n)),
     (.require, .one (required .name) fun n => Routine.perform (.require m n)),
     (.importNames, .one (required .names) fun ns => later (.importNames m ns)),
     (.importModule, .one (required .name) fun n => later (.importModule m n)),
     (.register,
        .three (required .name) (.withFresh .deps (newTuple [])) (nullable .factory) fun n ds f =>
          return .obj .draft (← Manager.register m n ds f)),
     (.transform, .one (required .draft) fun d => do
        Loader.transform (← Edit.read m).loader d),
     (.plugin, .two (nullable .name) (nullable .definition) fun n d => Manager.plugin m n d),
     (.ignore, .two (required .stage) (required .patterns) fun stage patterns => do
        let rules ← Edit.read (← Edit.read m).rules
        IgnoreRules.addFor rules.ignore stage patterns
        return .obj .manager m),
     (.reportError, .two (required .name) (required .error) fun n e =>
        nothing (Manager.report m n e))]

end AsyncImport.Interface
