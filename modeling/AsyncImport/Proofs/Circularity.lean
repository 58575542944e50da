import AsyncImport.Proofs.Requiring
import AsyncImport.Proofs.Waiting

/-!
# Circles of dependencies

A name that is being built is not loaded any more, and not cached before its dependencies are. If they
lead back to it, `require` refuses it, and with it everything on the circle. `require_ends` says all
that is known of a call of `require`.
-/

namespace AsyncImport.Bench

open Edit Staff Routine Relation

variable {B : Bench} {u v w : World} {ds : List Deed} {host : Host} {H : Exchange → Prop} {o : Outcome}
  {a : Activity} {r : Ref .module}

/-! ## Linking a module -/

def gathering (B : Bench) (deps : List Value) : Bounds where
  writes := B.Tends
  calls a := (∃ x ∈ deps, a = .require B.manager x) ∨ ∃ f codes, a = .produce f codes
  granted _ := True

def gather (B : Bench) (r : Ref .module) (c : Module) (deps : List Value) : Routine PUnit :=
  if c.factory ≠ .none && !c.hasCode then do
    let codes ← deps.mapM fun dep => do codeOf (← Linker.dependency (.obj .manager B.manager) dep)
    let code ← perform (.produce c.factory codes)
    Module.setCode r code
  else deps.forM fun dep => do let _ ← Linker.dependency (.obj .manager B.manager) dep

theorem linker_leads (r : Ref .module) (w : World) :
    (∃ e u, Leads (Linker.link (.obj .manager B.manager) (.obj .module r)) w (.fail e) u ∧
      B.Tends w u ∧ w.heap.items? (w.heap.get r).deps = none) ∨
    ∃ deps f, w.heap.items? (w.heap.get r).deps = some deps ∧
      Leads (Linker.link (.obj .manager B.manager) (.obj .module r)) w
        ((B.gather r (w.heap.get r) deps).bind f) w ∧
      ∀ u, ∃ v, Leads (f ⟨⟩) u (.done (.obj .module r)) v ∧ B.Tends (B.stored u r) v := by
  unfold Linker.link
  cases listed : w.heap.items? (w.heap.get r).deps with
  | none =>
    refine .inl ⟨_, _, (leads_doing (Quiet.run_read _ _)).trans
      (leads_failing (c := .typeMismatch) (u := w) ?_), tends_failing _ _, rfl⟩
    simp [items, run_bind, listed]
    rfl
  | some deps =>
    have listing : (items (w.heap.get r).deps).run w = (.ok deps, w) := by
      simp [items, run_bind, listed]
    refine .inr ⟨deps, fun _ => do
        Manager.cache (← asManager (.obj .manager B.manager)) (.obj .module r)
        debug "linker.linked" [("module", .str (w.heap.get r).name), ("deps", (← Edit.read r).deps)]
        return .obj .module r, rfl, ?_, fun u => ?_⟩
    · refine (leads_doing (Quiet.run_read _ _)).trans ((leads_doing listing).trans ?_)
      unfold gather
      split
      · simp only [bind_eq, Routine.bind_assoc]
        exact .refl _ _
      · exact .refl _ _
    · have caches : Manager.cache B.manager (.obj .module r) u = (.ok (), B.stored u r) := rfl
      let noting := debug "linker.linked"
        [("module", .str (w.heap.get r).name), ("deps", ((B.stored u r).heap.get r).deps)]
      have notes : noting.run (B.stored u r) = (.ok (), (noting.run (B.stored u r)).2) := rfl
      exact ⟨_, (leads_doing (e := liftM (asManager (.obj .manager B.manager))) rfl).trans
        ((leads_doing caches).trans ((leads_doing (Quiet.run_read _ _)).trans (leads_doing notes))),
        tends_quiet noting _⟩

theorem dependency_leads (x : Value) (w : World) :
    Leads (Linker.dependency (.obj .manager B.manager) x) w (perform (.require B.manager x)) w :=
  leads_doing (e := liftM (asManager (.obj .manager B.manager))) rfl

theorem runs_dependency {x : Value} (runs : (B.staff host H).Runs
    (Linker.dependency (.obj .manager B.manager) x) w ds o v) :
    ∃ d, ds = [d] ∧ d.activity = .require B.manager x ∧ d.outcome = o ∧ d.after = v := by
  obtain ⟨d, rfl, is, -, ends, after⟩ :=
    (runs_perform (P := B.staff host H) (.require x)).mp ((dependency_leads x w).runs.mp runs)
  exact ⟨d, rfl, is, ends, after⟩

theorem within_gather (r : Ref .module) (c : Module) (deps : List Value) (w : World) :
    (B.gather r c deps).Within (B.gathering deps) w := by
  have tame {w v : World} (tame : w.Tame v) : (B.gathering deps).writes w v := tends_tame tame
  have required (dep : Value) (mem : dep ∈ deps) (u : World) :
      (Linker.dependency (.obj .manager B.manager) dep).Within (B.gathering deps) u :=
    within_dependency (Tends.refl u) (.inl ⟨dep, mem, rfl⟩)
  unfold gather
  split
  · refine within_bind trivial (within_mapM (fun dep mem u _ => ?_) trivial) fun codes u _ => ?_
    · exact within_bind trivial (required dep mem u) fun x u _ => within_quiet tame _ u
    · refine within_bind trivial (within_perform (Or.inr ⟨_, _, rfl⟩) u) fun code u _ => ?_
      exact within_quiet tame _ u
  · refine within_forM (fun dep mem u _ => ?_) trivial
    exact within_bind trivial (required dep mem u) fun _ _ _ => trivial

theorem passes_gather (r : Ref .module) (c : Module) (deps : List Value) :
    (B.staff host H).Passes (fun _ => True) (B.gather r c deps) := by
  have dependency (x : Value) : (B.staff host H).Passes (fun _ => True)
      (Linker.dependency (.obj .manager B.manager) x) :=
    passes_bind (passes_edit _) fun _ => passes_perform _
  unfold gather
  split
  · refine passes_bind (passes_mapM fun x => ?_) fun _ => ?_
    · exact passes_bind (dependency x) fun _ => passes_edit _
    · exact passes_bind (passes_perform _) fun _ => passes_edit _
  · exact passes_forM fun x => passes_bind (dependency x) fun _ => passes_done _

theorem blames_gather {c : Module} (plain : c.factory = .none) (r : Ref .module) (deps : List Value) :
    (B.staff host H).Blames (B.gather r c deps) := by
  unfold gather
  rw [if_neg (by simp [plain])]
  refine blames_forM fun x => blames_bind (fun w ds e v runs => ?_) fun _ => blames_done _
  obtain ⟨d, rfl, -, fails, -⟩ := runs_dependency runs
  exact ⟨d, List.mem_singleton_self d, fails⟩

def Complete (B : Bench) (ds : List Deed) (deps : List Value) : Prop :=
  ∀ x ∈ deps, ∃ d ∈ ds, d.activity = .require B.manager x ∧ ∃ y, d.outcome = .ok y

theorem complete_gather {c : Module} {deps : List Value}
    (runs : (B.staff host H).Runs (B.gather r c deps) w ds (.ok ⟨⟩) v) : B.Complete ds deps := by
  have one {x : Value} {w es} {y : Value} {v} (among : ∀ d ∈ es, d ∈ ds) (runs : (B.staff host H).Runs
      (Linker.dependency (.obj .manager B.manager) x) w es (.ok y) v) :
      ∃ d ∈ ds, d.activity = .require B.manager x ∧ ∃ y, d.outcome = .ok y := by
    obtain ⟨d, rfl, is, ends, -⟩ := runs_dependency runs
    exact ⟨d, among d (List.mem_singleton_self d), is, y, ends⟩
  intro x mem
  unfold gather at runs
  split at runs
  · rcases runs_bind.mp runs with ⟨codes, ds₁, ds₂, u, rfl, first, -⟩ | ⟨e, never, -⟩
    · obtain ⟨u, es, b, y, among, runs⟩ := all_of_runs_mapM first x mem
      rcases runs_bind.mp runs with ⟨z, ds₃, ds₄, u, rfl, first, -⟩ | ⟨e, never, -⟩
      · exact one (fun d mem => by simp [among d (List.mem_append_left _ mem)]) first
      · cases never
    · cases never
  · obtain ⟨u, es, b, y, among, runs⟩ := all_of_runs_forM runs x mem
    rcases runs_bind.mp runs with ⟨z, ds₃, ds₄, u, rfl, first, -⟩ | ⟨e, never, -⟩
    · exact one (fun d mem => among d (List.mem_append_left _ mem)) first
    · cases never

inductive Links (B : Bench) (r : Ref .module) (w : World) (ds : List Deed) : Outcome → World → Prop
  | cached {deps : List Value} {u v : World} (listed : w.heap.items? (w.heap.get r).deps = some deps)
      (complete : B.Complete ds deps) (strung : Strung B.Tends w ds u)
      (after : B.Tends (B.stored u r) v) : Links B r w ds (.ok (.obj .module r)) v
  | failed {e : Ref .failure} {v : World} (strung : Strung B.Tends w ds v)
      (blame : (∃ d ∈ ds, d.outcome = .error e) ∨ (w.heap.get r).factory ≠ .none ∨
        w.heap.items? (w.heap.get r).deps = none) : Links B r w ds (.error e) v

theorem links_of_runs (calm : ∀ x, H x → B.Leaves x.before x.after)
    (runs : (B.staff host H).Runs (host.meaning
      (.invoke (.library .linkModule) [.obj .manager B.manager, .obj .module r])) w ds o v) :
    B.Links r w ds o v ∧ (∀ d ∈ ds, ∀ e, d.outcome = .error e → o = .error e ∧ v = d.after) ∧
      ∀ d ∈ ds, ∃ deps x, w.heap.items? (w.heap.get r).deps = some deps ∧ x ∈ deps ∧
        d.activity = .require B.manager x := by
  have runs := (link_leads _).runs.mp runs
  rcases linker_leads (B := B) r w with ⟨e, u, leads, tends, none⟩ | ⟨deps, f, listed, leads, ends⟩
  · obtain ⟨rfl, rfl, rfl⟩ := runs_fail.mp (leads.runs.mp runs)
    exact ⟨.failed (.nil tends) (.inr (.inr none)), by simp, by simp⟩
  · have within := within_gather (B := B) r (w.heap.get r) deps w
    have required {es p y} (runs : (B.staff host H).Runs (B.gather r (w.heap.get r) deps) w es p y) :
        ∀ d ∈ es, ∃ deps x, w.heap.items? (w.heap.get r).deps = some deps ∧ x ∈ deps ∧
          d.activity = .require B.manager x := fun d mem => by
      obtain ⟨own, ⟨x, among, is⟩ | ⟨f, codes, is⟩⟩ := each_of_runs (fun _ => trivial) runs within d mem
      · exact ⟨deps, x, listed, among, is⟩
      · rw [is] at own
        cases own
    rcases runs_bind.mp (leads.runs.mp runs) with ⟨⟨⟩, ds₁, ds₂, y, rfl, one, two⟩ | ⟨e, rfl, one⟩
    · obtain ⟨z, leads, tends⟩ := ends y
      obtain ⟨rfl, rfl, rfl⟩ := runs_done.mp (leads.runs.mp two)
      rw [List.append_nil]
      have strung := strung_within calm (fun _ => trivial) id one within
      refine ⟨.cached listed (complete_gather one) strung tends, fun d mem e fails => ?_, required one⟩
      cases (passes_gather r _ deps one d mem trivial e fails).1
    · refine ⟨.failed (strung_within calm (fun _ => trivial) id one within) ?_, fun d mem c fails => ?_,
        required one⟩
      · by_cases plain : (w.heap.get r).factory = .none
        · exact .inl (blames_gather plain r deps one)
        · exact .inr (.inl plain)
      · obtain ⟨same, after⟩ := passes_gather r _ deps one d mem trivial c fails
        cases same
        exact ⟨rfl, after⟩

/-! ## Building a module -/

def announcing (B : Bench) : Bounds where
  writes := B.Tends
  calls a := ∃ f args, a = .invoke f args ∧ Brief args
  granted _ := True

theorem telling_announcing : B.announcing.Telling :=
  ⟨tends_tame, fun f args brief => ⟨f, args, rfl, brief⟩⟩

def Decides (B : Bench) (a : Activity) : Prop :=
  (∃ x, a = .compileStage (.obj .manager B.manager) x) ∨
    ∃ r, a = .invoke (.library .linkModule) [.obj .manager B.manager, .obj .module r]

theorem passes_announcing {α : Type} {x : Routine α} (within : ∀ w, x.Within B.announcing w) :
    (B.staff host H).Passes B.Decides x := by
  refine passes_within (fun _ => trivial) ?_ within
  rintro a ⟨f, args, rfl, brief⟩ (⟨x, is⟩ | ⟨r, is⟩)
  · cases is
  · cases is
    exact brief _ _ rfl

theorem within_emitted (events event : Value) (w : World) :
    (Bus.emitOn events (.str Event.link) event).Within B.announcing w :=
  within_emitOn telling_announcing _ _ _ (fun _ _ => tends_announced _ _) trivial

theorem passes_building (item : Value) : (B.staff host H).Passes B.Decides (B.building item) := by
  refine passes_bind (passes_perform _) fun x => ?_
  unfold Loader.link
  split
  · next r =>
    have last (m : Ref .manager) : (B.staff host H).Passes B.Decides (do
        let linked ← Manager.link m (.obj .module r)
        Bus.emitOn (← Edit.read m).events (.str Event.link) (.linked (← nameOf linked))
        return linked : Routine Value) := by
      refine passes_bind (passes_bind (passes_edit _) fun c =>
        passes_bind (passes_perform _) fun x => ?_) fun x => passes_bind (passes_edit _) fun c =>
          passes_bind (passes_edit _) fun n => passes_bind ?_ fun _ => passes_done _
      · split <;> exact passes_done _
      · exact passes_announcing fun w => within_emitted _ _ w
    refine passes_bind (passes_edit _) fun c => passes_bind (passes_edit _) fun m =>
      passes_bind (passes_edit _) fun pending => ?_
    split
    · refine passes_bind (passes_announcing fun w => ?_) fun _ => last m
      exact within_reportRegistration telling_announcing m _ trivial
    · exact last m
  · exact passes_bind (passes_edit _) fun _ => passes_edit _

def announce (B : Bench) (r : Ref .module) : Routine Value := do
  let linked ← Manager.link B.manager (.obj .module r)
  Bus.emitOn (← Edit.read B.manager).events (.str Event.link) (.linked (← nameOf linked))
  return linked

theorem loaderLink_leads (stands : B.Stands w) (r : Ref .module) :
    ∃ report : Routine Unit, (∀ w, report.Within B.announcing w) ∧
      Leads (Loader.link B.loader (.obj .module r)) w (report.bind fun _ => B.announce r) w := by
  have manager : (Loader.managerOf B.loader).run w = (.ok B.manager, w) := by
    simp [Loader.managerOf, run_bind, stands.works]
  have pending := run_isIn stands (x := .str (w.heap.get r).name) rfl .pending
  have looks {s : Routine Value} {u : World} (later : Leads _ w s u) :
      Leads (Loader.link B.loader (.obj .module r)) w s u :=
    (leads_doing (Quiet.run_read _ _)).trans ((leads_doing manager).trans
      ((leads_doing pending).trans later))
  split at looks
  · refine ⟨_, fun w => ?_, looks (.refl _ _)⟩
    exact within_reportRegistration telling_announcing B.manager _ trivial
  · exact ⟨.done (), fun _ => trivial, looks (.refl _ _)⟩

section

variable (calm : ∀ x, H x → B.Leaves x.before x.after)
include calm

theorem linked_of_plays {d : Deed} {y : Value} (plays : (B.staff host H).Plays d)
    (is : d.activity = .invoke (.library .linkModule) [.obj .manager B.manager, .obj .module r])
    (ends : d.outcome = .ok y) : y = .obj .module r := by
  have runs := plays.runs
  rw [is, ends] at runs
  cases (links_of_runs calm runs).1
  rfl

theorem linked_of_announce {y : Value} (stands : B.Stands w)
    (plays : ∀ d ∈ ds, (B.staff host H).Plays d)
    (runs : (B.staff host H).Runs (B.announce r) w ds (.ok y) v) : y = .obj .module r ∧
      ∃ l ∈ ds, l.activity = .invoke (.library .linkModule) [.obj .manager B.manager, .obj .module r] ∧
        l.outcome = .ok (.obj .module r) := by
  unfold announce at runs
  rcases runs_bind.mp runs with ⟨linked, ds₁, ds₂, u, rfl, first, next⟩ | ⟨e, never, -⟩
  case inr => cases never
  have is : linked = .obj .module r ∧ ∃ l ∈ ds₁, l.activity =
      .invoke (.library .linkModule) [.obj .manager B.manager, .obj .module r] ∧
        l.outcome = .ok (.obj .module r) := by
    have first := (runs_doing (Quiet.run_read _ _)).mp first
    rw [stands.links] at first
    rcases runs_bind.mp first with ⟨x, ds₃, ds₄, z, rfl, one, two⟩ | ⟨e, never, -⟩
    case inr => cases never
    obtain ⟨l, rfl, called, -, ends, -⟩ := (runs_perform (P := B.staff host H) (.link r)).mp one
    obtain rfl := linked_of_plays calm (plays l (by simp)) called ends
    obtain ⟨rfl, same, -⟩ := runs_done.mp two
    exact ⟨Except.ok.inj same, l, by simp, called, ends⟩
  obtain ⟨rfl, l, mem, called, ends⟩ := is
  refine ⟨?_, l, List.mem_append_left _ mem, called, ends⟩
  have next := (runs_doing (Quiet.run_read _ _)).mp next
  rcases runs_bind.mp next with ⟨n, ds₃, ds₄, z, rfl, -, last⟩ | ⟨e, never, -⟩
  case inr => cases never
  rcases runs_bind.mp last with ⟨_, ds₅, ds₆, z, rfl, -, last⟩ | ⟨e, never, -⟩
  case inr => cases never
  exact Except.ok.inj (runs_done.mp last).2.1

omit calm in
theorem module_of_link {x y : Value}
    (runs : (B.staff host H).Runs (Loader.link B.loader x) w ds (.ok y) v) : ∃ r, x = .obj .module r := by
  unfold Loader.link at runs
  split at runs
  · exact ⟨_, rfl⟩
  · rcases runs_bind.mp runs with ⟨text, ds₁, ds₂, u, rfl, -, raised⟩ | ⟨e, never, -⟩
    · cases (runs_edit.mp raised).2
    · cases never

theorem linked_of_building {item y : Value} (stands : B.Stands w)
    (plays : ∀ d ∈ ds, (B.staff host H).Plays d) (own : ∀ d ∈ ds, B.Own d.activity)
    (runs : (B.staff host H).Runs (B.building item) w ds (.ok y) v) : ∃ r, y = .obj .module r ∧
      ∃ l ∈ ds, l.activity = .invoke (.library .linkModule) [.obj .manager B.manager, .obj .module r] ∧
        l.outcome = .ok (.obj .module r) := by
  have compiled : (B.staff host H).own (.compileStage (.obj .manager B.manager) item) := .compile item
  rcases runs_bind.mp runs with ⟨x, ds₁, ds₂, u, rfl, one, two⟩ | ⟨e, never, -⟩
  case inr => cases never
  obtain ⟨k, rfl, called, rfl, -, rfl⟩ := (runs_perform compiled).mp one
  obtain ⟨r, rfl⟩ := module_of_link two
  have sheds (d : Deed) (mem : d ∈ [k] ++ ds₂) (stands : B.Stands d.before) :=
    (sheds_of_plays calm (plays d mem) (own d mem) stands).1
  have compiled := (sheds k (by simp) stands).toLasts.stands stands
  obtain ⟨report, within, leads⟩ := loaderLink_leads compiled r
  rcases runs_bind.mp (leads.runs.mp two) with ⟨_, ds₃, ds₄, z, rfl, told, last⟩ | ⟨e, never, -⟩
  case inr => cases never
  have strung := (strung_within calm (fun _ => trivial) id told (within k.after)).mono Tends.spares
  have reported := (sheds_of_strung strung compiled fun d mem => sheds d (by simp [mem])).1
  obtain ⟨is, l, mem, called, ends⟩ := linked_of_announce calm (reported.toLasts.stands compiled)
    (fun d mem => plays d (by simp [mem])) last
  exact ⟨r, is, l, by simp [mem], called, ends⟩

/-- What comes of a call of `require`. -/
inductive Comes (B : Bench) (x : Value) (d : Deed) : Prop
  | cached {s : String} {r : Ref .module} (name : x = .str s) (entry : B.cached? d.before s = some r)
      (bare : d.parts = []) (ends : d.outcome = .ok (.obj .module r))
  | refused {e : Ref .failure} (bare : d.parts = []) (fails : d.outcome = .error e)
      (reason : ∀ s, x = .str s → B.cached? d.before s = none ∧ .text s ∉ B.loaded d.before ∧
        d.after.heap.get e = .state (.notRequirable s))
  | built {k : Key} (key : d.before.heap.key? x = some k) (loaded : k ∈ B.loaded d.before)
      (new : ∀ s, x = .str s → B.cached? d.before s = none) (begun : d.parts ≠ [])
      (linked : ∀ y, d.outcome = .ok y → ∃ r, y = .obj .module r ∧ ∃ l ∈ d.parts, l.activity =
        .invoke (.library .linkModule) [.obj .manager B.manager, .obj .module r] ∧
          l.outcome = .ok (.obj .module r))
      (passes : ∀ p ∈ d.parts, B.Decides p.activity → ∀ e, p.outcome = .error e →
        d.outcome = .error e ∧ d.after = p.after)

theorem comes_of_plays {d : Deed} {x : Value} (plays : (B.staff host H).Plays d)
    (is : d.activity = .require B.manager x) (stands : B.Stands d.before) : B.Comes x d := by
  obtain ⟨a, w, o, v, ds⟩ := d
  obtain rfl : a = .require B.manager x := is
  have runs : (B.staff host H).Runs (Manager.require B.manager x) w ds o v := plays.runs
  have stands : B.Stands w := stands
  have owned : ∀ d ∈ ds, B.Own d.activity :=
    (parts_of_runs calm (.require x) stands runs).choose_spec.2.2.1
  obtain ⟨s, u, leads, requires⟩ := require_leads stands x
  have runs := leads.runs.mp runs
  cases requires with
  | cached name entry =>
    obtain ⟨rfl, rfl, rfl⟩ := runs_done.mp runs
    exact .cached name entry rfl rfl
  | refused reason =>
    obtain ⟨rfl, rfl, rfl⟩ := runs_fail.mp runs
    refine .refused rfl rfl fun s is => ⟨(reason s is).1, (reason s is).2.1, ?_⟩
    exact (Heap.get_alloc_fresh _ _).trans (reason s is).2.2
  | @built k item key loaded new =>
    have sheds := sheds_shed stands loaded
    refine .built key loaded new ?_ ?_ fun p mem => passes_building item runs p mem
    · have compiled : (B.staff host H).own (.compileStage (.obj .manager B.manager) item) :=
        .compile item
      rcases runs_bind.mp runs with ⟨_, ds₁, ds₂, _, rfl, one, -⟩ | ⟨e, -, one⟩
      all_goals
        obtain ⟨k, rfl, -⟩ := (runs_perform compiled).mp one
        simp [Deed.parts]
    · rintro y ends
      obtain rfl : o = .ok y := ends
      exact linked_of_building calm (sheds.toLasts.stands stands) (fun d mem => plays.part mem) owned
        runs

theorem module_of_plays {d : Deed} {x y : Value} (plays : (B.staff host H).Plays d)
    (is : d.activity = .require B.manager x) (stands : B.Stands d.before) (ends : d.outcome = .ok y) :
    ∃ r, y = .obj .module r := by
  cases comes_of_plays calm plays is stands with
  | @cached s r _ _ _ given => exact ⟨r, Except.ok.inj (ends.symm.trans given)⟩
  | refused _ fails => cases ends.symm.trans fails
  | built _ _ _ _ linked => exact (linked y ends).imp fun r both => both.1

/-- A name that is being built is refused, unless a module has been cached under it meanwhile. -/
theorem refused_inside {c d : Deed} {s : String} (plays : (B.staff host H).Plays d)
    (stands : B.Stands d.before) (outer : d.activity = .require B.manager (.str s))
    (begun : d.parts ≠ []) (inside : c.Inside d) (inner : c.activity = .require B.manager (.str s))
    (new : B.cached? c.before s = none) :
    ∃ e, c.outcome = .error e ∧ c.after.heap.get e = .state (.notRequirable s) := by
  obtain ⟨play, -, ks, sheds⟩ := sheds_inside calm inside plays (outer ▸ .require _) stands
  have gone : Key.text s ∈ Deed.built d.activity d.before d.parts := by
    have runs := plays.runs
    rw [outer] at runs ⊢
    obtain ⟨-, -, -, -, nests⟩ := parts_of_runs calm (.require _) stands runs
    rcases Deed.built_require (m := B.manager) (.str s) d.before d.parts with none | name
    · exact absurd (nests begun) (by simp [none, Deed.nests])
    · rw [name]
      exact List.mem_singleton_self _
  cases comes_of_plays calm play inner (sheds.toLasts.stands stands) with
  | cached name entry =>
    cases name
    cases new.symm.trans entry
  | refused _ fails reason => exact ⟨_, fails, (reason s rfl).2.2⟩
  | built key loaded =>
    cases key
    exact absurd (List.mem_append_left _ gone) (sheds.mem_loaded.mp loaded).1

/-! ## Circles -/

end

def Depends (B : Bench) (w : World) (s : String) (names : List String) : Prop :=
  ∃ label d, B.record? w (.text s) = some ⟨label, .phase .loaded, .obj .draft d⟩ ∧
    w.heap.items? (w.heap.get d).deps = some (names.map .str)

def Needs (B : Bench) (w : World) (s t : String) : Prop :=
  B.cached? w s = none ∧ ∃ names, B.Depends w s names ∧ t ∈ names

/-- Modules are linked with the names and the dependencies that the drafts had in the beginning. -/
structure Faithful (B : Bench) (w : World) (d : Deed) : Prop where
  named : ∀ c l s r, c = d ∨ c.Inside d → c.activity = .require B.manager (.str s) → l ∈ c.parts →
    l.activity = .invoke (.library .linkModule) [.obj .manager B.manager, .obj .module r] →
      (l.before.heap.get r).name = s
  depends : ∀ l r, l = d ∨ l.Inside d →
    l.activity = .invoke (.library .linkModule) [.obj .manager B.manager, .obj .module r] →
      l.before.heap.Live r ∧ ∀ names, B.Depends w (l.before.heap.get r).name names →
        l.before.heap.items? (l.before.heap.get r).deps = some (names.map .str)

theorem Faithful.part {c d : Deed} (faithful : B.Faithful w d) (mem : c ∈ d.parts) :
    B.Faithful w c where
  named b l s r within := faithful.named b l s r (.inr (.of_part mem within))
  depends l r within := faithful.depends l r (.inr (.of_part mem within))

section

variable (calm : ∀ x, H x → B.Leaves x.before x.after)
include calm

def Unbuilt (B : Bench) (C : String → Prop) (w : World) : Prop := ∀ s, C s → B.cached? w s = none

omit calm in
theorem cached?_stored (stands : B.Stands w) (r : Ref .module) (s : String) :
    B.cached? (B.stored w r) s = if s = (w.heap.get r).name then some r else B.cached? w s := by
  rw [cached?, stored, World.get_set _ _ _ stands.manager, if_pos rfl, Assoc.get?_insert]
  rfl

/-- Names of which each needs another are not built. -/
theorem unbuilt_of_plays {C : String → Prop}
    (circle : ∀ s, C s → ∃ names, B.Depends w s names ∧ ∃ t ∈ names, C t) {d : Deed}
    (plays : (B.staff host H).Plays d) (is : B.Own d.activity) (stands : B.Stands d.before)
    (faithful : B.Faithful w d) (unbuilt : B.Unbuilt C d.before) :
    B.Unbuilt C d.after ∧
      (∀ s y, C s → d.activity = .require B.manager (.str s) → d.outcome ≠ .ok y) ∧
      ∀ r y, d.activity = .invoke (.library .linkModule) [.obj .manager B.manager, .obj .module r] →
        C (d.before.heap.get r).name → d.outcome ≠ .ok y := by
  induction plays with
  | @intro a x o v ds runs each ih =>
    have sheds (d : Deed) (mem : d ∈ ds) (own : B.Own d.activity) (stands : B.Stands d.before) :=
      (sheds_of_plays calm (each d mem) own stands).1
    have passing (own : ∀ d ∈ ds, B.Own d.activity) (d : Deed) (mem : d ∈ ds)
        (now : B.Stands d.before ∧ B.Unbuilt C d.before) : B.Stands d.after ∧ B.Unbuilt C d.after :=
      ⟨(sheds d mem (own d mem) now.1).toLasts.stands now.1,
        (ih d mem (own d mem) now.1 (faithful.part mem) now.2).1⟩
    have gap {u v : World} (now : B.Stands u ∧ B.Unbuilt C u) (tends : B.Tends u v) :
        B.Stands v ∧ B.Unbuilt C v :=
      have leaves := tends now.1
      ⟨leaves.toLasts.stands now.1, fun s mem => (leaves.cached? s).trans (now.2 s mem)⟩
    -- Only linking caches anything. The module of a name of the circle is not linked, because the next name
    -- of the circle was required before and not given.
    by_cases linking : ∃ r, a =
        .invoke (.library .linkModule) [.obj .manager B.manager, .obj .module r]
    · obtain ⟨r, rfl⟩ := linking
      obtain ⟨links, -, required⟩ := links_of_runs calm runs
      have own (d : Deed) (mem : d ∈ ds) : B.Own d.activity := by
        obtain ⟨_, _, _, _, is⟩ := required d mem
        exact is ▸ .require _
      obtain ⟨live, depends⟩ := faithful.depends _ r (.inl rfl) rfl
      have barred (y : Value) (mem : C (x.heap.get r).name) : o ≠ .ok y := by
        rintro rfl
        cases links with
        | cached listed complete strung _ =>
          obtain ⟨names, known, t, among, next⟩ := circle _ mem
          obtain rfl := Option.some.inj (listed.symm.trans (depends names known))
          obtain ⟨c, part, called, z, ends⟩ := complete (.str t) (List.mem_map.mpr ⟨t, among, rfl⟩)
          have before := (strung.holds gap (passing own) ⟨stands, unbuilt⟩).2 c part
          exact (ih c part (own c part) before.1 (faithful.part part) before.2).2.1 t z next called ends
      refine ⟨?_, fun _ _ _ is => (by cases is), fun q y is mem => ?_⟩
      · cases links with
        | failed strung _ => exact (strung.holds gap (passing own) ⟨stands, unbuilt⟩).1.2
        | @cached _ u _ _ _ strung after =>
          have last := (strung.holds gap (passing own) ⟨stands, unbuilt⟩).1
          have kept := (sheds_of_strung (strung.mono Tends.spares) stands fun d mem =>
            sheds d mem (own d mem)).1.names r live
          have standing := ((spares_stored u r) last.1).toLasts.stands last.1
          refine (gap ⟨standing, fun s mem => ?_⟩ after).2
          rw [cached?_stored last.1, if_neg ?_]
          · exact last.2 s mem
          · rintro rfl
            exact barred _ (kept ▸ mem) rfl
      · cases is
        exact barred y mem
    · obtain ⟨u, shed, same, strung, own, -⟩ :=
        parts_of_unlinking calm is stands (fun r is => linking ⟨r, is⟩) runs
      have now : B.Stands u ∧ B.Unbuilt C u :=
        ⟨shed.toLasts.stands stands, fun s mem => (same s).trans (unbuilt s mem)⟩
      obtain ⟨last, before⟩ := strung.holds gap (passing own) now
      refine ⟨last.2, fun s y mem is ends => ?_, fun r _ is => absurd ⟨r, is⟩ linking⟩
      obtain rfl : a = .require B.manager (.str s) := is
      cases comes_of_plays calm (.intro runs each) rfl stands with
      | cached name entry =>
        cases name
        cases (unbuilt s mem).symm.trans entry
      | refused _ fails => cases ends.symm.trans fails
      | built _ _ _ _ linked =>
        obtain ⟨r, -, l, part, called, done⟩ := linked y ends
        have named := faithful.named _ l s r (.inl rfl) rfl part called
        exact (ih l part (own l part) (before l part).1 (faithful.part part) (before l part).2).2.2 r _
          called (named.symm ▸ mem) done

/-- Something of the host has failed: a draft could not be compiled, a factory did not give the code of
a module, or a module could not be announced. -/
inductive Trouble (B : Bench) (e : Ref .failure) (d : Deed) : Prop
  | compiling {x : Value} (is : d.activity = .compileStage (.obj .manager B.manager) x)
      (fails : d.outcome = .error e)
  | making {r : Ref .module}
      (is : d.activity = .invoke (.library .linkModule) [.obj .manager B.manager, .obj .module r])
      (factory : (d.before.heap.get r).factory ≠ .none) (fails : d.outcome = .error e)
      (apart : ∀ p ∈ d.parts, p.outcome ≠ .error e)
  | announcing {x : Value} (is : d.activity = .require B.manager x) (begun : d.parts ≠ [])
      (fails : d.outcome = .error e)
      (apart : ∀ p ∈ d.parts, B.Decides p.activity → p.outcome ≠ .error e)

def Charted (B : Bench) (w : World) : Prop :=
  ∀ s, .text s ∈ B.loaded w → ∃ names, B.Depends w s names

/-- If nothing of the host fails, `require` fails for a name that it refuses. -/
theorem origin_of_plays (charted : B.Charted w) {d : Deed} (plays : (B.staff host H).Plays d)
    (stands : B.Stands d.before) (faithful : B.Faithful w d) (sheds : ∃ ks, B.Sheds w ks d.before)
    {e : Ref .failure} (fails : d.outcome = .error e)
    (apt : (∃ s, d.activity = .require B.manager (.str s)) ∨ ∃ r names, d.activity =
      .invoke (.library .linkModule) [.obj .manager B.manager, .obj .module r] ∧
        B.Depends w (d.before.heap.get r).name names) :
    (∃ s, d.after.heap.get e = .state (.notRequirable s)) ∨
      ∃ c, (c = d ∨ c.Inside d) ∧ B.Trouble e c := by
  induction plays with
  | @intro a x o v ds runs each ih =>
    have plays : (B.staff host H).Plays (.mk a x o v ds) := .intro runs each
    obtain ⟨ks, sheds⟩ := sheds
    have own : B.Own a := by
      rcases apt with ⟨s, rfl⟩ | ⟨r, -, rfl, -⟩
      · exact .require _
      · exact .link r
    -- A part that fails in the same way has the reason for the fault.
    have descend (p : Deed) (mem : p ∈ ds) (same : p.outcome = .error e) (after : v = p.after)
        (apt : (∃ s, p.activity = .require B.manager (.str s)) ∨ ∃ r names, p.activity =
          .invoke (.library .linkModule) [.obj .manager B.manager, .obj .module r] ∧
            B.Depends w (p.before.heap.get r).name names) :
        (∃ s, v.heap.get e = .state (.notRequirable s)) ∨
          ∃ c, (c = .mk a x o v ds ∨ c.Inside (.mk a x o v ds)) ∧ B.Trouble e c := by
      obtain ⟨-, -, js, here⟩ := sheds_inside calm (.part mem) plays own stands
      rcases ih p mem (here.toLasts.stands stands) (faithful.part mem) ⟨_, sheds.trans here⟩ same apt
        with refused | ⟨c, within, trouble⟩
      · exact .inl (after ▸ refused)
      · exact .inr ⟨c, .inr (.of_part mem within), trouble⟩
    rcases apt with ⟨s, is⟩ | ⟨r, names, is, known⟩
    · obtain rfl : a = .require B.manager (.str s) := is
      cases comes_of_plays calm plays rfl stands with
      | cached _ _ _ ends => cases fails.symm.trans ends
      | refused _ ends reason =>
        cases fails.symm.trans ends
        exact .inl ⟨s, (reason s rfl).2.2⟩
      | built key loaded _ begun _ passes =>
        by_cases decided : ∃ p ∈ ds, B.Decides p.activity ∧ p.outcome = .error e
        · obtain ⟨p, mem, ⟨item, is⟩ | ⟨r, is⟩, same⟩ := decided
          · exact .inr ⟨p, .inr (.part mem), .compiling is same⟩
          · refine descend p mem same (passes p mem (.inr ⟨r, is⟩) e same).2 (.inr ?_)
            cases key
            obtain ⟨names, known⟩ := charted s (sheds.subset loaded)
            have named := faithful.named _ p s r (.inl rfl) rfl mem is
            exact ⟨r, names, is, named.symm ▸ known⟩
        · exact .inr ⟨_, .inl rfl, .announcing rfl begun fails fun p mem among same =>
            decided ⟨p, mem, among, same⟩⟩
    · obtain rfl : a = .invoke (.library .linkModule) [.obj .manager B.manager, .obj .module r] := is
      obtain ⟨links, passes, required⟩ := links_of_runs calm runs
      have listed := (faithful.depends _ r (.inl rfl) rfl).2 names known
      by_cases blamed : ∃ p ∈ ds, p.outcome = .error e
      · obtain ⟨p, mem, same⟩ := blamed
        obtain ⟨deps, y, is, among, called⟩ := required p mem
        obtain rfl := Option.some.inj (is.symm.trans listed)
        obtain ⟨t, -, rfl⟩ := List.mem_map.mp among
        exact descend p mem same (passes p mem e same).2 (.inl ⟨t, called⟩)
      · obtain rfl : o = .error e := fails
        cases links with
        | failed _ blame =>
          rcases blame with here | factory | none
          · exact absurd here blamed
          · exact .inr ⟨_, .inl rfl, .making rfl factory rfl fun p mem same => blamed ⟨p, mem, same⟩⟩
          · cases listed.symm.trans none

/-! ## An end of every call -/

/-- What is known of a call of `require` that was carried out. -/
structure Ends (B : Bench) (host : Host) (H : Exchange → Prop) (w : World) (n : Value) (d : Deed) :
    Prop where
  /-- A machine comes to the same end. -/
  carried : (∀ x, H x → ∃ a, x.request = .call a ∧
      Machine.Carries host.meaning (host.meaning a) x.before (ofOutcome x.outcome) x.after) →
    Machine.Carries host.meaning (Manager.require B.manager n) w (ofOutcome d.outcome) d.after
  module : ∀ y, d.outcome = .ok y → ∃ r, y = .obj .module r
  /-- No name is compiled twice. -/
  once : d.compiled.Nodup
  loaded : ∀ k ∈ d.compiled, k ∈ B.loaded w
  /-- Calls stand within the first one no more often than there are loaded names. -/
  height : d.height ≤ (B.loaded w).card + 1
  /-- A name that is being built is refused, unless a module has been cached under it meanwhile. -/
  refused : ∀ (b c : Deed) (s : String), b = d ∨ b.Inside d → b.activity = .require B.manager (.str s) →
    b.parts ≠ [] → c.Inside b → c.activity = .require B.manager (.str s) →
      B.cached? c.before s = none →
        ∃ e, c.outcome = .error e ∧ c.after.heap.get e = .state (.notRequirable s)
  /-- A circle of dependencies is refused, unless something of the host fails first. -/
  circle : B.Faithful w d → B.Charted w → ∀ s t, n = .str s → ReflTransGen (B.Needs w) s t →
    TransGen (B.Needs w) t t → ∃ e, d.outcome = .error e ∧
      ((∃ m, d.after.heap.get e = .state (.notRequirable m)) ∨
        ∃ c, (c = d ∨ c.Inside d) ∧ B.Trouble e c)

theorem unbuilt_circle {d : Deed} {s t : String} {y : Value} (plays : (B.staff host H).Plays d)
    (stands : B.Stands d.before) (faithful : B.Faithful d.before d)
    (leads : ReflTransGen (B.Needs d.before) s t) (circle : TransGen (B.Needs d.before) t t)
    (is : d.activity = .require B.manager (.str s)) : d.outcome ≠ .ok y := by
  have next (x : String) (path : ReflTransGen (B.Needs d.before) x t) :
      ∃ y, B.Needs d.before x y ∧ ReflTransGen (B.Needs d.before) y t := by
    rcases ReflTransGen.cases_head path with rfl | step
    · exact TransGen.head'_iff.mp circle
    · exact step
  refine (unbuilt_of_plays calm (C := fun x => ReflTransGen (B.Needs d.before) x t) (fun x path => ?_)
    plays (is ▸ .require _) stands faithful fun x path => ?_).2.1 s y leads is
  · obtain ⟨y, ⟨-, names, known, mem⟩, rest⟩ := next x path
    exact ⟨names, known, y, mem, rest⟩
  · obtain ⟨y, ⟨new, -⟩, -⟩ := next x path
    exact new

/-- Every call of `require` comes to an end, whatever is loaded, if the host answers and leaves the
manager alone. -/
theorem require_ends (host : Host) (stands : B.Stands w) (n : Value)
    (answers : (B.staff host H).Answers (Manager.require B.manager n) w) :
    (∃ d, d.activity = .require B.manager n ∧ d.before = w ∧ (B.staff host H).Plays d) ∧
      ∀ d, d.activity = .require B.manager n → d.before = w → (B.staff host H).Plays d →
        B.Ends host H w n d := by
  refine ⟨exists_plays calm _ _ w (.require n) stands (Nat.lt_succ_self _) answers,
    fun d is before plays => ?_⟩
  subst before
  have own : B.Own d.activity := is ▸ .require n
  obtain ⟨sheds, height⟩ := sheds_of_plays calm plays own stands
  refine ⟨fun each => ?_, fun y => module_of_plays calm plays is stands, sheds.nodup, sheds.loaded,
    height, fun b c s within outer begun inside inner new => ?_,
    fun faithful charted s t name leads circle => ?_⟩
  · have carries := carries_of_plays (P := B.staff host H) each plays
    rw [is] at carries
    exact carries
  · rcases within with rfl | within
    · exact refused_inside calm plays stands outer begun inside inner new
    · obtain ⟨play, -, ks, here⟩ := sheds_inside calm within plays own stands
      exact refused_inside calm play (here.toLasts.stands stands) outer begun inside inner new
  · subst name
    cases ends : d.outcome with
    | ok y => exact absurd ends (unbuilt_circle calm plays stands faithful leads circle is)
    | error e =>
      have same := Sheds.refl (B := B) d.before
      exact ⟨e, rfl, origin_of_plays calm charted plays stands faithful ⟨[], same⟩ ends (.inl ⟨s, is⟩)⟩

end

def sole : Bench := ⟨⟨0⟩, ⟨0⟩, ⟨0⟩⟩

def draftWith (s t : String) : Edit Unit := do
  let d ← Draft.create (.str s) { code := some (.int 1), deps := ← newList [.str t] }
  Loader.setItem sole.loader .loaded (.str s) (.obj .draft d)

def entangled : World := ((do
  draftWith "a" "b"
  draftWith "b" "a" : Edit Unit).after Site.newManager.world).2

def Idle (x : Exchange) : Prop := x.after = x.before ∧ x.outcome = .ok .none

theorem stands_entangled : sole.Stands entangled := by
  constructor <;> decide +kernel

def owns (B : Bench) : Activity → Bool
  | .require m _ => m = B.manager
  | .compileStage m _ => m = .obj .manager B.manager
  | .invoke (.library .linkModule) [m, .obj .module _] => m = .obj .manager B.manager
  | _ => false

theorem own_of_owns (owned : B.owns a = true) : B.Own a := by
  unfold owns at owned
  split at owned
  · exact of_decide_eq_true owned ▸ .require _
  · exact of_decide_eq_true owned ▸ .compile _
  · exact of_decide_eq_true owned ▸ .link _
  · cases owned

def keeps (B : Bench) (w : World) (l : Deed) : Bool :=
  match l.activity with
  | .invoke (.library .linkModule) [_, .obj .module r] =>
    let c := l.before.heap.get r
    decide (l.before.heap.Live r) && match B.record? w (.text c.name) with
      | some ⟨_, .phase .loaded, .obj .draft d⟩ =>
        l.before.heap.items? c.deps = w.heap.items? (w.heap.get d).deps
      | _ => true
  | _ => true

def names (c : Deed) : Bool :=
  match c.activity with
  | .require _ (.str s) => c.parts.all fun l => match l.activity with
    | .invoke (.library .linkModule) [_, .obj .module r] => (l.before.heap.get r).name = s
    | _ => true
  | _ => true

theorem faithful_of_keeps {d : Deed} (kept : d.all.all (fun c => names c && B.keeps w c) = true) :
    B.Faithful w d := by
  have each (c : Deed) (within : c = d ∨ c.Inside d) : names c = true ∧ B.keeps w c = true := by
    have mem : c ∈ d.all := by
      rcases within with rfl | inside
      · rw [Deed.all_eq]
        exact List.mem_cons_self
      · exact inside.mem_all
    exact Bool.and_eq_true_iff.mp (List.all_eq_true.mp kept c mem)
  refine ⟨fun c l s r within is mem linked => ?_, fun l r within linked => ?_⟩
  · have named := (each c within).1
    unfold names at named
    rw [is] at named
    have part := List.all_eq_true.mp named l mem
    rw [linked] at part
    exact of_decide_eq_true part
  · have keeps := (each l within).2
    unfold Bench.keeps at keeps
    rw [linked] at keeps
    obtain ⟨live, same⟩ := Bool.and_eq_true_iff.mp keeps
    refine ⟨of_decide_eq_true live, fun names depends => ?_⟩
    obtain ⟨label, q, known, listed⟩ := depends
    rw [known] at same
    exact (of_decide_eq_true same).trans listed

theorem depends_entangled : sole.Depends entangled "a" ["b"] ∧ sole.Depends entangled "b" ["a"] := by
  constructor
  · exact ⟨.str "a", ⟨0⟩, by decide +kernel, by decide +kernel⟩
  · exact ⟨.str "b", ⟨1⟩, by decide +kernel, by decide +kernel⟩

theorem charted_entangled : sole.Charted entangled := by
  intro s loaded
  have names : sole.loaded entangled = {.text "a", .text "b"} := by decide +kernel
  rw [names, Finset.mem_insert, Finset.mem_singleton] at loaded
  rcases loaded with is | is <;> cases is
  · exact ⟨_, depends_entangled.1⟩
  · exact ⟨_, depends_entangled.2⟩

theorem require_ends_entangled : ∃ d c : Deed, (sole.staff (Host.ofScripts {}) Idle).Plays d ∧
    d.activity = .require sole.manager (.str "a") ∧ d.compiled.Nodup ∧ d.height ≤ 3 ∧
    c.Inside d ∧ c.activity = .require sole.manager (.str "a") ∧
    (∃ e, c.outcome = .error e ∧ c.after.heap.get e = .state (.notRequirable "a")) ∧
    ∃ e, d.outcome = .error e ∧ ((∃ m, d.after.heap.get e = .state (.notRequirable m)) ∨
      ∃ c, (c = d ∨ c.Inside d) ∧ sole.Trouble e c) := by
  obtain ⟨-, every⟩ := require_ends (B := sole) (H := Idle) (w := entangled)
    (fun x idle => idle.1 ▸ .refl _) (Host.ofScripts {}) stands_entangled (.str "a")
    fun a u _ => ⟨.ok .none, u, rfl, rfl⟩
  let refuses (c : Deed) : Bool :=
    c.activity = .require sole.manager (.str "a") && sole.cached? c.before "a" = none
  let played := (sole.staff (Host.ofScripts {}) Idle).act sole.owns 9 (.require sole.manager (.str "a")) entangled
  have fits : played.any (fun d => d.all.all (fun c => names c && sole.keeps entangled c) &&
      d.parts.any fun l => l.parts.any fun q => q.parts.any fun k => k.parts.any refuses) = true := by
    decide +kernel
  obtain ⟨d, acted⟩ : ∃ d, played = some d := Option.isSome_iff_exists.mp (by decide +kernel)
  rw [acted] at fits
  obtain ⟨kept, within⟩ := Bool.and_eq_true_iff.mp fits
  -- the call of "a" inside that of "b"
  obtain ⟨l, first, within⟩ := List.any_eq_true.mp within
  obtain ⟨q, second, within⟩ := List.any_eq_true.mp within
  obtain ⟨k, third, within⟩ := List.any_eq_true.mp within
  obtain ⟨c, fourth, within⟩ := List.any_eq_true.mp within
  obtain ⟨again, uncached⟩ := Bool.and_eq_true_iff.mp within
  have inside : c.Inside d :=
    .of_part first (.inr (.of_part second (.inr (.of_part third (.inr (.part fourth))))))
  obtain ⟨-, is, before, plays⟩ := Staff.plays_act own_of_owns 9 acted
  have ends := every d is before plays
  have height := ends.height
  rw [show (sole.loaded entangled).card = 2 by decide +kernel] at height
  have ab : sole.Needs entangled "a" "b" :=
    ⟨by decide +kernel, _, depends_entangled.1, List.mem_singleton_self _⟩
  have ba : sole.Needs entangled "b" "a" :=
    ⟨by decide +kernel, _, depends_entangled.2, List.mem_singleton_self _⟩
  exact ⟨d, c, plays, is, ends.once, height, inside, of_decide_eq_true again,
    ends.refused d c "a" (.inl rfl) is (List.ne_nil_of_mem first) inside (of_decide_eq_true again)
      (of_decide_eq_true uncached),
    ends.circle (faithful_of_keeps kept) charted_entangled "a" "a" rfl .refl (.tail (.single ab) ba)⟩

end AsyncImport.Bench
