import AsyncImport.Plugin.Run
import AsyncImport.Session.Call
import AsyncImport.Session.Records

/-!
# The members of plugins, registries and rules
-/

namespace AsyncImport.Interface

open Edit

def ofPlugin (p : Ref .plugin) : Interface where
  attributes :=
    [(.name, return (← read p).name),
     (.matchingRules, do
        let entries ← (← read p).rules.entries.mapM fun e => do
          return (e.1, e.2.name, ← newTuple (e.2.matcher.patterns.map .str))
        newDict ⟨entries⟩)]
  setters := [(.name, fun v => update p fun c => { c with name := v })]
  methods :=
    [(.handlers, .one (required .hook) fun hook => do
        let h ← Hook.parse hook
        newList (((← Edit.read p).handlersFor h).map Handler.toValue)),
     (.hasHandlers, .one (required .hook) fun hook => answer do
        let h ← Hook.parse hook
        return (← Edit.read p).hasHandlers h),
     (.addMatchingRules, .two (required .ruleName) (required .patterns) fun rule patterns => do
        Plugin.addMatchingRules p rule patterns
        return .obj .plugin p),
     (.addHandlers, .two (required .hook) (required .handlers) fun hook handlers => do
        Plugin.addHandlersFor p hook handlers
        return .obj .plugin p),
     (.canProcess, .one (required .draft) fun d => answer do
        Plugin.takesPart p (← asDraft d)),
     (.run, .two (required .hook) (required .draft) fun hook d => later (.runPlugin p hook d)),
     (.runSync, .two (required .hook) (required .draft) fun hook d => Plugin.runNow p hook d)]

def ofRegistry (r : Ref .registry) : Interface where
  attributes :=
    [(.matchFunction, return (← read r).compare),
     (.plugins, do newList ((← read r).plugins.map fun p => .obj .plugin p))]
  setters := [(.matchFunction, fun v => update r fun c => { c with compare := v })]
  methods :=
    [(.pipeline, .one (required .hook) fun hook =>
        return .obj .fanout (← Registry.fanoutFor r hook)),
     (.get, .one (required .name) fun n => return plugin? (← Registry.find r n)),
     (.create, .one (nullable .name) fun n => return .obj .plugin (← Registry.createPlugin r n)),
     (.register, .two (nullable .name) (nullable .definition) fun n d =>
        return .obj .plugin (← Registry.register r n d)),
     (.registerMany, .one (required .definitions) fun ds => do
        newList ((← Registry.registerMany r ds).map fun p => .obj .plugin p)),
     (.run, .two (required .hook) (required .draft) fun hook d => later (.runRegistry r hook d)),
     (.runSync, .two (required .hook) (required .draft) fun hook d => Registry.runNow r hook d),
     (.resolveHandler, .one (required .name) fun n => later (.resolveHandler r n)),
     (.resolveHandlerSync, .one (required .name) fun n => Registry.resolveNow r n)]
where
  plugin? : Option (Ref .plugin) → Value
    | some p => .obj .plugin p
    | none => .none

def ofFanout (f : Ref .fanout) : Interface where
  attributes :=
    [(.hook, return (← read f).hook), (.plugins, do newList (← read f).plugins)]
  setters := [(.hook, fun v => update f fun c => { c with hook := v })]
  methods :=
    [(.use, .one (required .plugin) fun p => do
        Edit.update f fun c => c.use p
        return .obj .fanout f),
     (.pluginsFor, .one (required .draft) fun d => do
        newList ((← Fanout.selected f d).map fun p => .obj .plugin p)),
     (.runAll, .one (required .draft) fun d => later (.runFanout f d)),
     (.runAllSync, .one (required .draft) fun d => Fanout.runNow f d)]

def ofMatcher (m : Ref .matcher) : Interface where
  attributes := [(.patterns, do newTuple ((← read m).patterns.map .str))]
  methods :=
    [(.add, .one (required .patterns) fun v => do
        let ps ← patternList v
        Edit.update m fun c => c.add ps
        return .obj .matcher m),
     (.matches, .one (required .value) fun v => answer do
        (← Edit.read m).accepts v)]

def ofIgnoreRules (r : Ref .ignoreRules) : Interface where
  methods :=
    [(.add, .two (required .stage) (required .patterns) fun stage patterns => do
        IgnoreRules.addFor r stage patterns
        return .obj .ignoreRules r),
     (.matches, .two (required .name) (required .stage) fun n stage => answer do
        let h ← Hook.parse stage
        (← Edit.read r).ignores n h),
     (.clear, .one (nullable .stage) fun stage => nothing (IgnoreRules.clearFor r stage))]

def ofRules (r : Ref .rules) : Interface where
  attributes := [(.ignore, return .obj .ignoreRules (← read r).ignore)]

end AsyncImport.Interface
