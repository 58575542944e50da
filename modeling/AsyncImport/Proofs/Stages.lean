import AsyncImport.Loader.Build
import AsyncImport.Proofs.Safety

/-!
# What plugins and stages do

The code that hooks and stages consist of changes drafts and other data, calls and awaits what the
host has given, and nothing else.
-/

namespace AsyncImport

/-! ## Merging drafts -/

namespace Edit

variable {α β : Type}

def Mild (e : Edit α) : Prop := ∀ w : World, w.Tame (e.after w).2

theorem mild_quiet (x : Quiet α) : Mild (liftM x : Edit α) := fun w => (Routine.near_after x w).tame

theorem mild_pure (x : α) : Mild (pure x : Edit α) := fun w => .refl w

theorem mild_throw {f : Fault} (straight : f.isCircular = false) : Mild (throw f : Edit α) := fun w =>
  { loose := (World.still_failure w f).loose
    straight := World.straight_alloc w straight
    futures := fun _ => World.get_alloc_kind (k := .failure) f (by decide)
    lists := fun _ _ => World.get_alloc_kind (k := .failure) f (by decide)
    modules := fun _ _ => congrArg Module.deps (World.get_alloc_kind (k := .failure) f (by decide))
    silent := ⟨[], (List.append_nil _).symm, by simp⟩ }

theorem mild_bind {x : Edit α} {f : α → Edit β} (first : Mild x) (next : ∀ a, Mild (f a)) :
    Mild (x >>= f) := by
  intro w
  have here := first w
  unfold after at here ⊢
  rw [run_bind]
  rcases ends : x w with ⟨e | a, v⟩ <;> rw [ends] at here
  · exact here
  · exact here.trans (next a v)

theorem mild_forM {xs : List α} {f : α → Edit PUnit} (each : ∀ x, Mild (f x)) :
    Mild (forM xs f) := by
  induction xs with
  | nil => exact mild_pure _
  | cons x xs ih =>
    rw [List.forM_cons]
    exact mild_bind (each x) fun _ => ih

theorem mild_rename (d : Ref .draft) (v : Value) : Mild (update d fun c => { c with name := v }) :=
  fun w =>
  { loose := .setDraft w d _
    straight := fun _ _ => Heap.get_set_kind _ _ (by decide)
    futures := fun _ => Heap.get_set_kind _ _ (by decide)
    lists := fun _ _ => Heap.get_set_kind _ _ (by decide)
    modules := fun _ _ => congrArg Module.deps (Heap.get_set_kind _ _ (by decide))
    silent := ⟨[], (List.append_nil _).symm, by simp⟩ }

theorem mild_setOption (d : Ref .draft) (label v : Value) : Mild (Draft.setOption d label v) := by
  unfold Draft.setOption
  split
  case h_5 =>
    split
    · exact mild_rename d v
    · exact mild_throw rfl
  case h_2 | h_3 | h_4 => exact mild_bind (mild_quiet _) fun _ => mild_quiet _
  all_goals exact mild_quiet _

theorem mild_configure (d : Ref .draft) (options : Value) : Mild (Draft.configure d options) := by
  have from_ (o : Dict) : Mild (Draft.configureFrom d o) :=
    mild_forM fun e => mild_setOption d e.1 e.2
  unfold Draft.configure
  split
  · exact mild_bind (mild_quiet _) fun o => mild_bind (from_ o) fun _ => mild_pure d
  · exact mild_bind (mild_quiet _) fun o => mild_bind (from_ o) fun _ => mild_pure d
  · exact mild_bind (mild_throw rfl) fun _ => mild_pure d

theorem mild_merge (d : Ref .draft) (result : Value) : Mild (Draft.merge d result) := by
  unfold Draft.merge
  split
  · exact mild_pure d
  · exact mild_pure _
  · exact mild_configure d _
  · exact mild_bind (mild_quiet _) fun c => mild_bind (mild_quiet _) fun text =>
      mild_bind (mild_quiet _) fun _ => mild_throw rfl

end Edit

namespace Routine

variable {B : Bounds}

theorem within_mild {α : Type} (tame : ∀ {w v : World}, w.Tame v → B.writes w v) {e : Edit α}
    (mild : Edit.Mild e) (w : World) : (edit e).Within B w := within_edit (tame (mild w))

/-! ## Events -/

section

variable (telling : B.Telling)
include telling

theorem within_deliver (id : String) (event : Value) (s : Subscription) {w : World} (granted : B.granted w) :
    (Bus.deliver (.str id) event s).Within B w := by
  unfold Bus.deliver
  refine within_rescue (fun e u later => ?_) granted ?_
  · exact within_first telling.tame later fun _ _ _ => trivial
  · refine within_bind granted (within_perform (telling.tell _ _ ?_) w) fun _ _ _ => trivial
    split <;> exact fun m r => by simp

theorem within_handOut (b : Ref .bus) (id : String) (event : Value) {w : World}
    (granted : B.granted w) : (Bus.handOut b (.str id) event).Within B w := by
  unfold Bus.handOut
  refine within_first telling.tame granted fun subscribers u later => ?_
  refine within_bind later
    (within_mapM (fun s _ v later => within_deliver telling id event s later) later) ?_
  exact fun _ _ _ => trivial

theorem within_emitOn (events : Value) (id : String) (event : Value)
    (told : ∀ (w : World) (b : Ref .bus), B.writes w (w.announced ⟨b, .str id, event⟩)) {w : World}
    (granted : B.granted w) : (Bus.emitOn events (.str id) event).Within B w := by
  unfold Bus.emitOn
  split
  · next b =>
    refine within_bind granted ?_ fun _ _ _ => trivial
    exact within_bind granted ⟨told w b, fun _ => trivial⟩ fun _ _ later =>
      within_handOut telling b id event later
  · exact within_raise telling.tame _ w

theorem within_report (m : Ref .manager) (name error : Value) {w : World} (granted : B.granted w) :
    (Manager.report m name error).Within B w := by
  unfold Manager.report
  refine within_first telling.tame granted fun text u later => ?_
  refine within_first telling.tame later fun _ u later => ?_
  exact within_first telling.tame later fun manager u later =>
    within_emitOn telling _ _ _ (fun _ _ => telling.tame (.announced _ (by simp; decide))) later

theorem within_reportRegistration (m : Ref .manager) (name : Value) {w : World}
    (granted : B.granted w) : (Manager.reportRegistration m name).Within B w := by
  unfold Manager.reportRegistration
  refine within_first telling.tame granted fun _ u later => ?_
  exact within_first telling.tame later fun manager u later =>
    within_emitOn telling _ _ _ (fun _ _ => telling.tame (.announced _ (by simp; decide))) later

end

section

variable (plain : B.Plain)
include plain

/-! ## Matching -/

theorem within_compareWith (compare value : Value) (pattern : String) {w : World}
    (granted : B.granted w) : (Matcher.compareWith compare value pattern).Within B w := by
  unfold Matcher.compareWith
  split
  · exact within_quiet plain.tame _ w
  · exact within_bind granted (within_callValue plain _ _ w) fun v u _ => within_quiet plain.tame _ u

theorem within_accepts (m : Matcher) (value : Value) {w : World} (granted : B.granted w) :
    (m.accepts value).Within B w := by
  unfold Matcher.accepts
  split
  · exact trivial
  · exact within_anyM (fun p u => within_compareWith plain _ _ p) granted

theorem within_ignoreRules (r : IgnoreRules) (name : Value) (h : Hook) {w : World}
    (granted : B.granted w) : (r.ignores name h).Within B w := by
  unfold IgnoreRules.ignores
  split
  · exact within_accepts plain _ name granted
  · exact trivial

theorem within_takesPart (p : Ref .plugin) (d : Ref .draft) {w : World} (granted : B.granted w) :
    (Plugin.takesPart p d).Within B w := by
  unfold Plugin.takesPart
  refine within_first plain.tame granted fun plugin u later => ?_
  refine within_first plain.tame later fun draft u later => ?_
  refine within_first plain.tame later fun named u later => ?_
  split
  · split
    · exact trivial
    · exact within_quiet plain.tame _ u
  · split
    · exact trivial
    · refine within_anyM (fun rule v later => ?_) later
      refine within_first plain.tame later fun draft v later => ?_
      exact within_first plain.tame later fun value v later => within_accepts plain _ value later

theorem within_ignores (m : Ref .manager) (name : Value) (h : Hook) {w : World}
    (granted : B.granted w) : (Manager.ignores m name h).Within B w := by
  unfold Manager.ignores
  refine within_first plain.tame granted fun manager u later => ?_
  refine within_first plain.tame later fun rules u later => ?_
  exact within_first plain.tame later fun ignore u later => within_ignoreRules plain _ name h later

/-! ## Handlers that are run at once -/

theorem within_resolveNow (r : Ref .registry) (name : Value) {w : World} (granted : B.granted w) :
    (Registry.resolveNow r name).Within B w := by
  unfold Registry.resolveNow
  refine within_first plain.tame granted fun registry u later => ?_
  split
  · exact within_first plain.tame later fun _ u _ => within_raise plain.tame _ u
  · refine within_bind later (within_callValue plain _ _ u) fun module u _ => ?_
    exact within_quiet plain.tame _ u

theorem within_targetNow (p : Ref .plugin) (h : Handler) {w : World} (granted : B.granted w) :
    (Plugin.targetNow p h).Within B w := by
  unfold Plugin.targetNow
  split
  · exact within_first plain.tame granted fun r u later => within_resolveNow plain r _ later
  · exact trivial

theorem within_merged (d : Ref .draft) (result : Value) {w : World} (granted : B.granted w) :
    (do return Value.obj .draft (← Draft.merge d result) : Routine Value).Within B w :=
  within_bind granted (within_mild plain.tame (Edit.mild_merge d result) w) fun _ _ _ => trivial

theorem within_runHandlerNow (p : Ref .plugin) (hook : Hook) (draft : Value) (h : Handler)
    {w : World} (granted : B.granted w) : (Plugin.runHandlerNow p hook draft h).Within B w := by
  unfold Plugin.runHandlerNow
  refine within_bind granted (within_targetNow plain p h granted) fun f u later => ?_
  refine within_first plain.tame later fun d u later => ?_
  refine within_first plain.tame later fun _ u later => ?_
  refine within_bind later (within_callValue plain _ _ u) fun result u later => ?_
  split
  · refine within_bind later (within_discard plain.tame result u) fun _ u later => ?_
    refine within_first plain.tame later fun plugin u later => ?_
    refine within_first plain.tame later fun name u later => ?_
    exact within_bind later (within_raise plain.tame _ u) fun _ v later => within_merged plain d _ later
  · exact within_merged plain d result later

theorem within_runPluginNow (p : Ref .plugin) (hook draft : Value) {w : World}
    (granted : B.granted w) : (Plugin.runNow p hook draft).Within B w := by
  unfold Plugin.runNow
  refine within_first plain.tame granted fun h u later => ?_
  refine within_first plain.tame later fun plugin u later => ?_
  exact within_foldlM (fun d handler _ v => within_runHandlerNow plain p h d handler) _ later

theorem within_selects (hook draft member : Value) {w : World} (granted : B.granted w) :
    (Fanout.selects hook draft member).Within B w := by
  unfold Fanout.selects
  split
  · refine within_first plain.tame granted fun plugin u later => ?_
    refine within_first plain.tame later fun h u later => ?_
    split
    · exact within_first plain.tame later fun d u later => within_takesPart plain _ d later
    · exact trivial
  · exact within_raise plain.tame _ w

theorem within_selected (f : Ref .fanout) (draft : Value) {w : World} (granted : B.granted w) :
    (Fanout.selected f draft).Within B w := by
  unfold Fanout.selected
  refine within_first plain.tame granted fun fanout u later => ?_
  refine within_bind later (within_filterM (fun member v => within_selects plain _ _ member) later) ?_
  exact fun _ _ _ => trivial

theorem within_runFanoutNow (f : Ref .fanout) (draft : Value) {w : World} (granted : B.granted w) :
    (Fanout.runNow f draft).Within B w := by
  unfold Fanout.runNow
  refine within_bind granted (within_selected plain f draft granted) fun plugins u later => ?_
  refine within_foldlM (fun d p _ v later => ?_) _ later
  exact within_first plain.tame later fun fanout v later => within_runPluginNow plain p _ d later

theorem within_runRegistryNow (r : Ref .registry) (hook draft : Value) {w : World}
    (granted : B.granted w) : (Registry.runNow r hook draft).Within B w := by
  unfold Registry.runNow
  exact within_first plain.tame granted fun f u later => within_runFanoutNow plain f draft later

theorem within_runHookNow (m : Ref .manager) (h : Hook) (d : Ref .draft) {w : World}
    (granted : B.granted w) : (Manager.runHookNow m h d).Within B w := by
  unfold Manager.runHookNow
  refine within_first plain.tame granted fun manager u later => ?_
  refine within_bind later (within_runRegistryNow plain _ _ _ later) fun draft u _ => ?_
  exact within_quiet plain.tame _ u

/-! ## Providers -/

theorem within_managerResolve (m : Ref .manager) (draft : Value) {w : World}
    (granted : B.granted w) : (Manager.resolve m draft).Within B w := by
  unfold Manager.resolve
  exact within_first plain.tame granted fun manager u _ => within_callValue plain _ _ u

theorem within_managerFetch (m : Ref .manager) (draft : Value) {w : World}
    (granted : B.granted w) : (Manager.fetch m draft).Within B w := by
  unfold Manager.fetch
  exact within_first plain.tame granted fun manager u _ => within_callValue plain _ _ u

theorem within_managerCompile (m : Ref .manager) (draft : Value) {w : World}
    (granted : B.granted w) : (Manager.compile m draft).Within B w := by
  unfold Manager.compile
  exact within_first plain.tame granted fun manager u _ => within_callValue plain _ _ u

theorem within_managerLink (m : Ref .manager) (module : Value) {w : World}
    (granted : B.granted w) : (Manager.link m module).Within B w := by
  unfold Manager.link
  refine within_first plain.tame granted fun manager u later => ?_
  refine within_bind later (within_callValue plain _ _ u) fun linked u _ => ?_
  split <;> exact trivial

/-! ## Compiling -/

theorem within_ofDraft (d : Ref .draft) {w : World} (granted : B.granted w) :
    (do return Value.obj .module (← Module.ofDraft d) : Routine Value).Within B w :=
  within_first plain.tame granted fun _ _ _ => trivial

theorem within_moduleOf (m : Ref .manager) (d : Ref .draft) {w : World} (granted : B.granted w) :
    (Stage.moduleOf m d).Within B w := by
  unfold Stage.moduleOf
  refine within_first plain.tame granted fun c u later => ?_
  split
  · exact within_ofDraft plain d later
  refine within_bind later (within_managerCompile plain m _ later) fun result u later => ?_
  have taken (u : World) (later : B.granted u) : (do
      let d ← Draft.merge d result
      let c ← Edit.read d
      if c.isCompiled || (← Loader.has (← Edit.read m).loader c.name) then
        return .obj .module (← Module.ofDraft d)
      raise (.compile (.empty (← Edit.spoken c.name))) : Routine Value).Within B u := by
    refine within_bind later (within_mild plain.tame (Edit.mild_merge d result) u) fun d u later => ?_
    refine within_first plain.tame later fun c u later => ?_
    refine within_first plain.tame later fun manager u later => ?_
    refine within_first plain.tame later fun known u later => ?_
    split
    · exact within_ofDraft plain d later
    · exact within_first plain.tame later fun name u _ => within_raise plain.tame _ u
  split
  · exact trivial
  · split
    · refine within_bind later (within_discard plain.tame result u) fun _ u later => ?_
      refine within_first plain.tame later fun c u later => ?_
      refine within_first plain.tame later fun name u later => ?_
      exact within_bind later (within_raise plain.tame _ u) fun _ v later => taken v later
    · exact taken u later

theorem within_compileStage (manager draft : Value) {w : World} (granted : B.granted w) :
    (Stage.compile manager draft).Within B w := by
  unfold Stage.compile
  refine within_first plain.tame granted fun d u later => ?_
  refine within_first plain.tame later fun c u later => ?_
  refine within_first plain.tame later fun _ u later => ?_
  refine within_first plain.tame later fun m u later => ?_
  refine within_bind later (within_ignores plain m _ _ later) fun ignored u later => ?_
  split
  · exact within_moduleOf plain m d later
  · refine within_bind later (within_runHookNow plain m _ d later) fun d v later => ?_
    exact within_moduleOf plain m d later

end

section

variable (roomy : B.Roomy)
include roomy

/-! ## Handlers that are waited for -/

theorem within_resolve (r : Ref .registry) (name : Value) {w : World} (granted : B.granted w) :
    (Registry.resolve r name).Within B w := by
  unfold Registry.resolve
  refine within_first roomy.plain.tame granted fun registry u later => ?_
  split
  · exact within_first roomy.plain.tame later fun _ u _ => within_raise roomy.plain.tame _ u
  · refine within_bind later (within_callValue roomy.plain _ _ u) fun v u later => ?_
    refine within_bind later (within_awaitGiven roomy v u) fun module u _ => ?_
    exact within_quiet roomy.plain.tame _ u

theorem within_target (p : Ref .plugin) (h : Handler) {w : World} (granted : B.granted w) :
    (Plugin.target p h).Within B w := by
  unfold Plugin.target
  split
  · exact within_first roomy.plain.tame granted fun r u later => within_resolve roomy r _ later
  · exact trivial

theorem within_runHandler (p : Ref .plugin) (hook : Hook) (draft : Value) (h : Handler) {w : World}
    (granted : B.granted w) : (Plugin.runHandler p hook draft h).Within B w := by
  unfold Plugin.runHandler
  refine within_bind granted (within_target roomy p h granted) fun f u later => ?_
  refine within_first roomy.plain.tame later fun d u later => ?_
  refine within_first roomy.plain.tame later fun _ u later => ?_
  refine within_bind later (within_callValue roomy.plain _ _ u) fun v u later => ?_
  refine within_bind later (within_settleGiven roomy v u) fun result u later => ?_
  exact within_merged roomy.plain d result later

theorem within_runPlugin (p : Ref .plugin) (hook draft : Value) {w : World}
    (granted : B.granted w) : (Plugin.run p hook draft).Within B w := by
  unfold Plugin.run
  refine within_first roomy.plain.tame granted fun h u later => ?_
  refine within_first roomy.plain.tame later fun plugin u later => ?_
  exact within_foldlM (fun d handler _ v => within_runHandler roomy p h d handler) _ later

theorem within_runFanout (f : Ref .fanout) (draft : Value) {w : World} (granted : B.granted w) :
    (Fanout.run f draft).Within B w := by
  unfold Fanout.run
  refine within_bind granted (within_selected roomy.plain f draft granted) fun plugins u later => ?_
  refine within_foldlM (fun d p _ v later => ?_) _ later
  exact within_first roomy.plain.tame later fun fanout v later => within_runPlugin roomy p _ d later

theorem within_runRegistry (r : Ref .registry) (hook draft : Value) {w : World}
    (granted : B.granted w) : (Registry.run r hook draft).Within B w := by
  unfold Registry.run
  exact within_first roomy.plain.tame granted fun f u later => within_runFanout roomy f draft later

theorem within_runHook (m : Ref .manager) (h : Hook) (d : Ref .draft) {w : World}
    (granted : B.granted w) : (Manager.runHook m h d).Within B w := by
  unfold Manager.runHook
  refine within_first roomy.plain.tame granted fun manager u later => ?_
  refine within_bind later (within_runRegistry roomy _ _ _ later) fun draft u _ => ?_
  exact within_quiet roomy.plain.tame _ u

/-! ## Stages -/

theorem within_fetchStage (manager name parent : Value) {w : World} (granted : B.granted w) :
    (Stage.fetch manager name parent).Within B w := by
  unfold Stage.fetch
  refine within_first roomy.plain.tame granted fun m u later => ?_
  refine within_first roomy.plain.tame later fun d u later => ?_
  refine within_bind later (within_managerResolve roomy.plain m _ later) fun v u later => ?_
  refine within_bind later (within_settleGiven roomy v u) fun resolved u later => ?_
  refine within_bind later (within_mild roomy.plain.tame (Edit.mild_merge d resolved) u) fun d u later => ?_
  refine within_first roomy.plain.tame later fun c u later => ?_
  refine within_first roomy.plain.tame later fun _ u later => ?_
  split
  · exact trivial
  refine within_bind later (within_ignores roomy.plain m _ _ later) fun ignored u later => ?_
  split
  · exact trivial
  refine within_bind later (within_runHook roomy m _ d later) fun d u later => ?_
  refine within_first roomy.plain.tame later fun c u later => ?_
  split
  · exact trivial
  refine within_bind later (within_managerFetch roomy.plain m _ later) fun v u later => ?_
  refine within_bind later (within_settleGiven roomy v u) fun fetched u _ => ?_
  exact within_mild roomy.plain.tame (Edit.mild_merge d fetched) u

theorem within_transformStage (manager draft : Value) {w : World} (granted : B.granted w) :
    (Stage.transform manager draft).Within B w := by
  unfold Stage.transform
  refine within_first roomy.plain.tame granted fun d u later => ?_
  refine within_first roomy.plain.tame later fun c u later => ?_
  refine within_first roomy.plain.tame later fun _ u later => ?_
  refine within_first roomy.plain.tame later fun m u later => ?_
  refine within_bind later (within_ignores roomy.plain m _ _ later) fun ignored u later => ?_
  split
  · exact trivial
  · exact within_runHook roomy m _ d later

theorem within_dependencies (manager draft : Value) {w : World} (granted : B.granted w) :
    (Stage.dependencies manager draft).Within B w := by
  unfold Stage.dependencies
  refine within_first roomy.plain.tame granted fun d u later => ?_
  refine within_first roomy.plain.tame later fun c u later => ?_
  refine within_first roomy.plain.tame later fun _ u later => ?_
  split
  · exact trivial
  refine within_first roomy.plain.tame later fun m u later => ?_
  refine within_bind later (within_ignores roomy.plain m _ _ later) fun ignored u later => ?_
  split
  · exact trivial
  · exact within_runHook roomy m _ d later

theorem within_runStage (context payload stage : Value) {w : World} (granted : B.granted w) :
    (Pipeline.runStage context payload stage).Within B w := by
  unfold Pipeline.runStage
  refine within_first roomy.plain.tame granted fun name u later => ?_
  refine within_first roomy.plain.tame later fun _ u later => ?_
  refine within_bind later (within_callValue roomy.plain _ _ u) fun v u later => ?_
  refine within_bind later (within_settleGiven roomy v u) fun result u _ => ?_
  split <;> exact trivial

theorem within_runPipeline (p : Ref .pipeline) (context payload : Value) {w : World}
    (granted : B.granted w) : (Pipeline.run p context payload).Within B w := by
  unfold Pipeline.run
  refine within_first roomy.plain.tame granted fun pipeline u later => ?_
  exact within_foldlM (fun d stage _ v => within_runStage roomy context d stage) _ later

end

end Routine
end AsyncImport
