import AsyncImport.Proofs.Calling
import AsyncImport.Proofs.Nesting
import Mathlib.Data.Finset.Card

/-!
# Requiring modules

`require` builds a loaded draft at once, and the linker requires the dependencies in turn. A record is
taken out before its draft is compiled, so that there is one less for whatever is required meanwhile.
`Bench.Sheds` follows the records along: from it come the end of every call of `require`, and that no
name is compiled twice (`sheds_of_plays`, `exists_plays`).
-/

namespace AsyncImport

open Edit

theorem Assoc.mem_keys {κ ν : Type} [DecidableEq κ] {m : Assoc κ ν} {k : κ} {x : ν}
    (known : m.get? k = some x) : k ∈ m.keys := by
  obtain ⟨_, _, split, -⟩ := List.lookup_eq_some_iff.mp known
  simp [keys, split]

/-- A manager with its loader and the store of that. -/
structure Bench where
  manager : Ref .manager
  loader : Ref .loader
  store : Ref .store

namespace Bench

variable {B : Bench} {u v w : World} {ds : List Deed} {ks : List Key} {x : Value}

/-- The parts are there and belong to each other, and modules are linked by the linker of the
library. -/
structure Stands (B : Bench) (w : World) : Prop where
  manager : w.heap.Live B.manager
  loader : w.heap.Live B.loader
  store : w.heap.Live B.store
  serves : (w.heap.get B.manager).loader = B.loader
  works : (w.heap.get B.loader).manager = .obj .manager B.manager
  stores : (w.heap.get B.loader).store = B.store
  links : (w.heap.get B.manager).linker = .library .linkModule

def record? (B : Bench) (w : World) (k : Key) : Option Record := (w.heap.get B.store).records.get? k

def cached? (B : Bench) (w : World) (s : String) : Option (Ref .module) :=
  (w.heap.get B.manager).modules.get? s

def loaded (B : Bench) (w : World) : Finset Key :=
  (w.heap.get B.store).records.keys.toFinset.filter fun k =>
    (w.heap.get B.store).holds (.phase .loaded) k

theorem mem_loaded {k : Key} :
    k ∈ B.loaded w ↔ (w.heap.get B.store).holds (.phase .loaded) k = true := by
  simp only [loaded, Finset.mem_filter, List.mem_toFinset, and_iff_right_iff_imp]
  intro holds
  unfold Store.holds at holds
  cases found : (w.heap.get B.store).records.get? k with
  | none => simp [found] at holds
  | some r => exact Assoc.mem_keys found

theorem loaded_iff {k : Key} :
    k ∈ B.loaded w ↔ ∃ label item, B.record? w k = some ⟨label, .phase .loaded, item⟩ := by
  rw [mem_loaded]
  unfold Store.holds record?
  cases (w.heap.get B.store).records.get? k with
  | none => simp
  | some r =>
    obtain ⟨label, phase, item⟩ := r
    simp

/-! ## What lasts -/

structure Lasts (B : Bench) (w v : World) : Prop where
  live : ∀ {k : Kind} (r : Ref k), w.heap.Live r → v.heap.Live r
  serves : (v.heap.get B.manager).loader = (w.heap.get B.manager).loader
  links : (v.heap.get B.manager).linker = (w.heap.get B.manager).linker
  works : (v.heap.get B.loader).manager = (w.heap.get B.loader).manager
  stores : (v.heap.get B.loader).store = (w.heap.get B.loader).store
  names : ∀ r : Ref .module, w.heap.Live r → (v.heap.get r).name = (w.heap.get r).name

structure Leaves (B : Bench) (w v : World) : Prop extends B.Lasts w v where
  modules : (v.heap.get B.manager).modules = (w.heap.get B.manager).modules
  records : (v.heap.get B.store).records = (w.heap.get B.store).records

structure Sheds (B : Bench) (w : World) (ks : List Key) (v : World) : Prop extends B.Lasts w v where
  records : ∀ k, B.record? v k = if k ∈ ks then none else B.record? w k
  nodup : ks.Nodup
  loaded : ∀ k ∈ ks, k ∈ B.loaded w

theorem Lasts.refl (w : World) : B.Lasts w w := ⟨fun _ => id, rfl, rfl, rfl, rfl, fun _ _ => rfl⟩

theorem Lasts.trans (first : B.Lasts u w) (next : B.Lasts w v) : B.Lasts u v where
  live r live := next.live r (first.live r live)
  serves := next.serves.trans first.serves
  links := next.links.trans first.links
  works := next.works.trans first.works
  stores := next.stores.trans first.stores
  names r live := (next.names r (first.live r live)).trans (first.names r live)

theorem Lasts.stands (lasts : B.Lasts w v) (stands : B.Stands w) : B.Stands v where
  manager := lasts.live _ stands.manager
  loader := lasts.live _ stands.loader
  store := lasts.live _ stands.store
  serves := lasts.serves.trans stands.serves
  works := lasts.works.trans stands.works
  stores := lasts.stores.trans stands.stores
  links := lasts.links.trans stands.links

theorem Leaves.refl (w : World) : B.Leaves w w := ⟨.refl w, rfl, rfl⟩

theorem Leaves.trans (first : B.Leaves u w) (next : B.Leaves w v) : B.Leaves u v :=
  ⟨first.toLasts.trans next.toLasts, next.modules.trans first.modules, next.records.trans first.records⟩

theorem Leaves.cached? (leaves : B.Leaves w v) (s : String) : B.cached? v s = B.cached? w s := by
  simp only [Bench.cached?, leaves.modules]

theorem Leaves.sheds (leaves : B.Leaves w v) : B.Sheds w [] v :=
  ⟨leaves.toLasts, fun k => by simp [record?, leaves.records], List.nodup_nil, by simp⟩

theorem Sheds.refl (w : World) : B.Sheds w [] w := (Leaves.refl w).sheds

theorem Sheds.mem_loaded (sheds : B.Sheds w ks v) {k : Key} :
    k ∈ B.loaded v ↔ k ∉ ks ∧ k ∈ B.loaded w := by
  simp only [loaded_iff, sheds.records]
  by_cases gone : k ∈ ks <;> simp [gone]

theorem Sheds.trans {js : List Key} (first : B.Sheds u ks w) (next : B.Sheds w js v) :
    B.Sheds u (ks ++ js) v where
  toLasts := first.toLasts.trans next.toLasts
  records k := by
    rw [next.records, first.records]
    by_cases here : k ∈ ks <;> by_cases there : k ∈ js <;> simp [here, there]
  nodup := List.nodup_append'.mpr ⟨first.nodup, next.nodup, fun k here there =>
    (first.mem_loaded.mp (next.loaded k there)).1 here⟩
  loaded k mem := (List.mem_append.mp mem).elim (first.loaded k) fun there =>
    (first.mem_loaded.mp (next.loaded k there)).2

theorem Sheds.subset (sheds : B.Sheds w ks v) : B.loaded v ⊆ B.loaded w :=
  fun _ mem => (sheds.mem_loaded.mp mem).2

theorem Sheds.card (sheds : B.Sheds w ks v) : ks.length + (B.loaded v).card ≤ (B.loaded w).card := by
  rw [← List.toFinset_card_of_nodup sheds.nodup, ← Finset.card_union_of_disjoint ?_]
  · refine Finset.card_le_card fun k mem => ?_
    rcases Finset.mem_union.mp mem with gone | still
    · exact sheds.loaded k (List.mem_toFinset.mp gone)
    · exact sheds.subset still
  · refine Finset.disjoint_left.mpr fun k gone still => ?_
    exact (sheds.mem_loaded.mp still).1 (List.mem_toFinset.mp gone)

/-! ## Changes of data -/

def Tends (B : Bench) (w v : World) : Prop := B.Stands w → B.Leaves w v

def Spares (B : Bench) (w v : World) : Prop := B.Stands w → B.Sheds w [] v

theorem Tends.refl (w : World) : B.Tends w w := fun _ => .refl w

theorem Tends.trans (first : B.Tends u w) (next : B.Tends w v) : B.Tends u v := fun stands =>
  have here := first stands
  here.trans (next (here.toLasts.stands stands))

theorem Spares.refl (w : World) : B.Spares w w := fun _ => .refl w

theorem Spares.trans (first : B.Spares u w) (next : B.Spares w v) : B.Spares u v := fun stands =>
  have here := first stands
  here.trans (next (here.toLasts.stands stands))

theorem Tends.spares (tends : B.Tends w v) : B.Spares w v := fun stands => (tends stands).sheds

theorem tends_loose (loose : w.Loose v) : B.Tends w v := fun stands => by
  have manager : v.heap.get B.manager = w.heap.get B.manager :=
    loose.rests _ (by decide) stands.manager
  have loader : v.heap.get B.loader = w.heap.get B.loader := loose.rests _ (by decide) stands.loader
  have store : v.heap.get B.store = w.heap.get B.store := loose.rests _ (by decide) stands.store
  exact ⟨⟨fun r live => Nat.lt_of_lt_of_le live (loose.size _), by rw [manager], by rw [manager],
    by rw [loader], by rw [loader], fun r live => loose.rests r (by decide) live⟩,
    by rw [manager], by rw [store]⟩

theorem tends_tame (tame : w.Tame v) : B.Tends w v := tends_loose tame.loose

theorem tends_announced (w : World) (e : Emission) : B.Tends w (w.announced e) :=
  tends_loose (World.Slight.announced w e).loose

theorem tends_quiet {α : Type} (x : Quiet α) (w : World) : B.Tends w (x.run w).2 :=
  tends_tame (x.near w).tame

theorem tends_failing (w : World) (f : Fault) : B.Tends w (w.alloc .failure f) :=
  tends_loose (World.still_failure w f).loose

/-! ## The code of a manager -/

/-- What the code of a manager is followed through: `require`, called by itself or as the resolver of
handlers, and what it leads to. -/
inductive Own (B : Bench) : Activity → Prop
  | require (x : Value) : Own B (.require B.manager x)
  | called (reading : Ref .reading) (x : Value) :
      Own B (.invoke (.method .manager B.manager .require reading) [x])
  | compile (x : Value) : Own B (.compileStage (.obj .manager B.manager) x)
  | link (r : Ref .module) :
      Own B (.invoke (.library .linkModule) [.obj .manager B.manager, .obj .module r])

/-- A manager beside a host, of which it is known what may become of its calls. -/
def staff (B : Bench) (host : Host) (answers : Exchange → Prop) : Staff :=
  ⟨host.meaning, B.Own, answers⟩

open Staff Routine

variable {host : Host}

theorem called_leads (reading : Ref .reading) (x : Value) : Leads (host.meaning
    (.invoke (.method .manager B.manager .require reading) [x])) w (perform (.require B.manager x)) w :=
  leads_doing (e := Parameter.bind [required .name] [x] []) rfl

theorem link_leads (x : Value) : Leads (host.meaning
      (.invoke (.library .linkModule) [.obj .manager B.manager, x])) w
    (Linker.link (.obj .manager B.manager) x) w :=
  leads_doing (e := Parameter.bind [required .manager, required .module]
    [.obj .manager B.manager, x] []) rfl

def shed (B : Bench) (w : World) (k : Key) : World :=
  w.set B.store ((w.heap.get B.store).remove k)

theorem sheds_shed (stands : B.Stands w) {k : Key} (mem : k ∈ B.loaded w) :
    B.Sheds w [k] (B.shed w k) where
  live _ live := World.live_set.mpr live
  serves := by rw [shed, World.get_set_kind _ (by decide)]
  links := by rw [shed, World.get_set_kind _ (by decide)]
  works := by rw [shed, World.get_set_kind _ (by decide)]
  stores := by rw [shed, World.get_set_kind _ (by decide)]
  names _ _ := by rw [shed, World.get_set_kind _ (by decide)]
  records j := by
    rw [record?, shed, World.get_set _ _ _ stands.store, if_pos rfl]
    simp only [Store.remove, Assoc.get?_erase, List.mem_singleton, record?]
  nodup := List.nodup_singleton k
  loaded j same := List.mem_singleton.mp same ▸ mem

theorem cached?_shed (k : Key) (s : String) : B.cached? (B.shed w k) s = B.cached? w s := by
  rw [cached?, shed, World.get_set_kind _ (by decide)]
  rfl

def building (B : Bench) (item : Value) : Routine Value :=
  (perform (.compileStage (.obj .manager B.manager) item)).bind (Loader.link B.loader)

/-- A name is cached, or it is built if it is loaded, or it is refused. -/
inductive Requires (B : Bench) (w : World) (x : Value) : Routine Value → World → Prop
  | cached {s : String} {r : Ref .module} (name : x = .str s) (entry : B.cached? w s = some r) :
      Requires B w x (.done (.obj .module r)) w
  | built {k : Key} {item : Value} (key : w.heap.key? x = some k) (loaded : k ∈ B.loaded w)
      (new : ∀ s, x = .str s → B.cached? w s = none) : Requires B w x (B.building item) (B.shed w k)
  | refused {f : Fault} (reason : ∀ s, x = .str s → B.cached? w s = none ∧ .text s ∉ B.loaded w ∧
      f = .state (.notRequirable s)) :
      Requires B w x (.fail (w.heap.fresh .failure)) (w.alloc .failure f)

theorem run_key_some {x : Value} {k : Key} (known : w.heap.key? x = some k) :
    (key x).run w = (.ok k, w) := by
  simp [key, run_bind, known]

theorem run_key_none {x : Value} (unknown : w.heap.key? x = none) :
    (key x).run w = (.error .typeMismatch, w) := by
  simp [key, run_bind, unknown]
  rfl

theorem run_find {x : Value} {k : Key} (known : w.heap.key? x = some k) :
    (Manager.find B.manager x).run w = (.ok (x.str?.bind (B.cached? w)), w) := by
  simp [Manager.find, run_bind, Quiet.run_map, run_key_some known]
  rfl

theorem run_isIn (stands : B.Stands w) {x : Value} {k : Key} (known : w.heap.key? x = some k)
    (p : Phase) : (Loader.isIn B.loader p x).run w =
      (.ok ((w.heap.get B.store).holds (.phase p) k), w) := by
  simp [Loader.isIn, Loader.storeOf, run_bind, Quiet.run_map, run_key_some known, stands.stores]

theorem run_remove (stands : B.Stands w) {x : Value} {k : Key} (known : w.heap.key? x = some k) :
    Loader.remove B.loader x w =
      (.ok (((w.heap.get B.store).item? k).getD .none), B.shed w k) := by
  simp [Loader.remove, Loader.updateStore, Loader.storeOf, run_bind, run_map, run_key_some known,
    stands.stores, shed]

theorem run_spoken (x : Value) (w : World) : (spoken x).run w =
    (if w.heap.hasText x then .ok (w.heap.spoken x) else .error .missing, w) := by
  by_cases text : w.heap.hasText x <;> simp [spoken, run_bind, text] <;> rfl

theorem require_leads (stands : B.Stands w) (x : Value) :
    ∃ s u, Leads (Manager.require B.manager x) w s u ∧ B.Requires w x s u := by
  unfold Manager.require
  cases known : w.heap.key? x with
  | none =>
    have fails : (Manager.find B.manager x).run w = (.error .typeMismatch, w) := by
      simp [Manager.find, run_bind, run_key_none known]
    refine ⟨_, _, leads_failing fails, .refused fun s is => ?_⟩
    subst is
    cases known
  | some k =>
    have found := run_find (B := B) known
    cases entry : x.str?.bind (B.cached? w) with
    | some r =>
      rw [entry] at found
      obtain ⟨s, name, entry⟩ := Option.bind_eq_some_iff.mp entry
      refine ⟨_, _, leads_doing found, .cached ?_ entry⟩
      cases x <;> simp_all [Value.str?]
    | none =>
      rw [entry] at found
      have new (s : String) (is : x = .str s) : B.cached? w s = none := by
        subst is
        simpa [Value.str?] using entry
      have looked := run_isIn stands known .loaded
      by_cases holds : (w.heap.get B.store).holds (.phase .loaded) k = true
      · rw [holds] at looked
        let item := ((w.heap.get B.store).item? k).getD .none
        refine ⟨B.building item, _, ?_, .built known (mem_loaded.mpr holds) new⟩
        refine (leads_doing found).trans ((leads_doing (Quiet.run_read _ _)).trans ?_)
        rw [stands.serves]
        refine (leads_doing looked).trans ?_
        refine Leads.bind ?_ _
        refine (leads_doing looked).trans ((leads_doing (run_remove stands known)).trans ?_)
        refine (leads_doing (Quiet.run_read _ _)).trans ?_
        rw [((sheds_shed stands (mem_loaded.mpr holds)).toLasts.stands stands).works]
        exact .refl _ _
      · have holds : (w.heap.get B.store).holds (.phase .loaded) k = false := by simpa using holds
        rw [holds] at looked
        have looks : Leads (Manager.require B.manager x) w
            ((edit (liftM (spoken x))).bind fun n => raise (.state (.notRequirable n))) w := by
          refine (leads_doing found).trans ((leads_doing (Quiet.run_read _ _)).trans ?_)
          rw [stands.serves]
          exact leads_doing looked
        have spelt := run_spoken x w
        by_cases text : w.heap.hasText x = true
        · rw [if_pos text] at spelt
          refine ⟨_, _, looks.trans ((leads_doing spelt).trans (leads_edit (Edit.after_error rfl))),
            .refused fun s is => ⟨new s is, ?_, ?_⟩⟩
          · subst is
            cases known
            simp [mem_loaded, holds]
          · subst is
            rfl
        · rw [if_neg text] at spelt
          refine ⟨_, _, looks.trans (leads_failing spelt), .refused fun s is => ?_⟩
          subst is
          exact absurd rfl text

/-! ## What the code keeps to -/

def calling (B : Bench) : Bounds where
  writes := B.Tends
  calls a := (∃ f args, a = .invoke f args) ∨ ∃ x, a = .compileStage (.obj .manager B.manager) x
  granted _ := True

theorem plain_calling : B.calling.Plain :=
  ⟨tends_tame, fun f args => .inl ⟨f, args, rfl⟩⟩

theorem within_compile (manager x : Value) :
    (Stage.compile manager x).Within (Protocol.Course.invoking B.Tends) w :=
  within_compileStage (Protocol.Course.plain_invoking tends_tame) manager x trivial

theorem within_building (item : Value) : (B.building item).Within B.calling w := by
  have plain : B.calling.Plain := plain_calling
  refine within_bind trivial (within_perform (Or.inr ⟨item, rfl⟩) w) fun x u _ => ?_
  unfold Loader.link
  split
  · next r =>
    refine within_first plain.tame trivial fun c u _ => ?_
    refine within_first plain.tame trivial fun m u _ => ?_
    refine within_first plain.tame trivial fun pending u _ => ?_
    have last (u : World) : (do
        let linked ← Manager.link m (.obj .module r)
        Bus.emitOn (← Edit.read m).events (.str Event.link) (.linked (← nameOf linked))
        return linked : Routine Value).Within B.calling u := by
      refine within_bind trivial (within_managerLink plain m _ trivial) fun linked u _ => ?_
      refine within_first plain.tame trivial fun c u _ => ?_
      refine within_first plain.tame trivial fun name u _ => ?_
      refine within_bind trivial ?_ fun _ _ _ => trivial
      exact within_emitOn plain.telling _ _ _ (fun _ _ => tends_announced _ _) trivial
    split
    · refine within_bind trivial ?_ fun _ u _ => last u
      exact within_reportRegistration plain.telling m _ trivial
    · exact last u
  · exact within_first plain.tame trivial fun text u _ => within_raise plain.tame _ u

def stored (B : Bench) (w : World) (r : Ref .module) : World :=
  w.set B.manager { w.heap.get B.manager with
    modules := (w.heap.get B.manager).modules.insert (w.heap.get r).name r }

theorem spares_stored (w : World) (r : Ref .module) : B.Spares w (B.stored w r) := fun stands => by
  have manager : (B.stored w r).heap.get B.manager = { w.heap.get B.manager with
      modules := (w.heap.get B.manager).modules.insert (w.heap.get r).name r } :=
    Heap.get_set_self _ _ stands.manager
  have other {k : Kind} (s : Ref k) (ne : k ≠ .manager) : (B.stored w r).heap.get s = w.heap.get s :=
    World.get_set_kind _ ne
  exact ⟨⟨fun _ live => World.live_set.mpr live, by rw [manager], by rw [manager],
    by rw [other _ (by decide)], by rw [other _ (by decide)], fun s _ => by rw [other s (by decide)]⟩,
    fun k => by simp [record?, other B.store (by decide)], List.nodup_nil, by simp⟩

def linking (B : Bench) : Bounds where
  writes := B.Spares
  calls a := (∃ x, a = .require B.manager x) ∨ ∃ f codes, a = .produce f codes
  granted _ := True

theorem tame_linking {w v : World} (tame : w.Tame v) : B.linking.writes w v := (tends_tame tame).spares

theorem within_dependency {G : Bounds} (writes : G.writes w w)
    (calls : G.calls (.require B.manager x)) :
    (Linker.dependency (.obj .manager B.manager) x).Within G w :=
  ⟨writes, fun _ => within_perform calls w⟩

theorem within_linker (r : Ref .module) (w : World) :
    (Linker.link (.obj .manager B.manager) (.obj .module r)).Within B.linking w := by
  have required (dep : Value) (u : World) :
      (Linker.dependency (.obj .manager B.manager) dep).Within B.linking u :=
    within_dependency (Spares.refl u) (.inl ⟨dep, rfl⟩)
  have last (c : Module) (u : World) : (do
      Manager.cache (← asManager (.obj .manager B.manager)) (.obj .module r)
      debug "linker.linked" [("module", .str c.name), ("deps", (← Edit.read r).deps)]
      return .obj .module r : Routine Value).Within B.linking u := by
    refine ⟨Spares.refl u, fun _ => ?_⟩
    show (Routine.bind (edit (Manager.cache B.manager (.obj .module r))) _).Within B.linking u
    refine within_bind trivial (within_edit (spares_stored u r)) fun _ u _ => ?_
    refine within_first tame_linking trivial fun d u _ => ?_
    exact within_first tame_linking trivial fun _ _ _ => trivial
  unfold Linker.link
  refine within_first tame_linking trivial fun c u _ => ?_
  refine within_first tame_linking trivial fun deps u _ => ?_
  split
  · refine within_bind trivial (within_mapM (fun dep _ u _ => ?_) trivial) fun codes u _ => ?_
    · exact within_bind trivial (required dep u) fun x u _ => within_quiet tame_linking _ u
    · refine within_bind trivial (within_perform (Or.inr ⟨_, _, rfl⟩) u) fun code u _ => ?_
      exact within_first tame_linking trivial fun _ u _ => last c u
  · refine within_bind trivial (within_forM (fun dep _ u _ => ?_) trivial) fun _ u _ => last c u
    exact within_bind trivial (required dep u) fun _ _ _ => trivial

/-! ## What was compiled -/

end Bench

namespace Deed

def built (a : Activity) (w : World) : List Deed → List Key
  | .mk (.compileStage ..) .. :: _ =>
    match a with
    | .require _ x => (w.heap.key? x).toList
    | _ => []
  | _ => []

def nests : Activity → Nat
  | .require .. => 1
  | _ => 0

theorem built_require {m : Ref .manager} (x : Value) (w : World) (ds : List Deed) :
    built (.require m x) w ds = [] ∨ built (.require m x) w ds = (w.heap.key? x).toList := by
  unfold built
  split <;> simp

theorem built_other {a : Activity} {w : World} {ds : List Deed} (other : nests a = 0) :
    built a w ds = [] := by
  unfold built
  split
  · split
    · cases other
    · rfl
  · rfl

mutual

def compiled : Deed → List Key
  | .mk a w _ _ ds => built a w ds ++ compiledAll ds

def compiledAll : List Deed → List Key
  | [] => []
  | d :: ds => d.compiled ++ compiledAll ds

end

mutual

/-- The number of calls of `require` that stand within one another. -/
def height : Deed → Nat
  | .mk a _ _ _ ds => nests a + heightAll ds

def heightAll : List Deed → Nat
  | [] => 0
  | d :: ds => max d.height (heightAll ds)

end

theorem heightAll_le {n : Nat} {ds : List Deed} : heightAll ds ≤ n ↔ ∀ d ∈ ds, d.height ≤ n := by
  induction ds with
  | nil => simp [heightAll]
  | cons d ds ih => simp [heightAll, ih]

end Deed

namespace Bench

open Staff Routine

variable {B : Bench} {u v w : World} {ds : List Deed} {host : Host} {H : Exchange → Prop} {o : Outcome}
  {a : Activity}

theorem sheds_of_strung (strung : Strung B.Spares w ds v) (stands : B.Stands w)
    (each : ∀ d ∈ ds, B.Stands d.before → B.Sheds d.before d.compiled d.after) :
    B.Sheds w (Deed.compiledAll ds) v ∧ ∀ d ∈ ds, ∃ ks, B.Sheds w ks d.before := by
  induction strung with
  | nil gap => exact ⟨gap stands, by simp⟩
  | @cons w v d ds gap _ ih =>
    have here := gap stands
    have before := here.toLasts.stands stands
    have done := here.trans (each d List.mem_cons_self before)
    obtain ⟨last, rest⟩ := ih (done.toLasts.stands stands) fun c mem =>
      each c (List.mem_cons_of_mem _ mem)
    refine ⟨done.trans last, List.forall_mem_cons.mpr ⟨⟨_, here⟩, fun c mem => ?_⟩⟩
    obtain ⟨ks, later⟩ := rest c mem
    exact ⟨_, done.trans later⟩

def rank (B : Bench) (w : World) : Activity → Nat
  | .require .. => 4 * (B.loaded w).card
  | .invoke (.method ..) _ => 4 * (B.loaded w).card + 1
  | .invoke .. => 4 * (B.loaded w).card + 2
  | _ => 4 * (B.loaded w).card + 3

theorem rank_le (is : B.Own a) : B.rank w a ≤ 4 * (B.loaded w).card + 3 := by
  cases is <;> simp [rank]

section

variable (calm : ∀ x, H x → B.Leaves x.before x.after)
include calm

theorem strung_within {G : Bounds} (granted : ∀ w, G.granted w)
    (writes : ∀ {u v}, G.writes u v → B.Tends u v) {α : Type} {r : Routine α}
    {o : Except (Ref .failure) α} (runs : (B.staff host H).Runs r w ds o v) (within : r.Within G w) :
    Strung B.Tends w ds v :=
  strung_of_runs Tends.refl Tends.trans granted writes (fun _ _ answers _ => calm _ answers) runs within

/-- What an activity of the manager that links nothing consists of: once the record of the name that is
built is gone, it consists of others, and nothing else becomes of the cache and the records. -/
theorem parts_of_unlinking (is : B.Own a) (stands : B.Stands w)
    (unlinking : ∀ r, a ≠ .invoke (.library .linkModule) [.obj .manager B.manager, .obj .module r])
    (runs : (B.staff host H).Runs (host.meaning a) w ds o v) :
    ∃ u, B.Sheds w (Deed.built a w ds) u ∧ (∀ s, B.cached? u s = B.cached? w s) ∧
      Strung B.Tends u ds v ∧ (∀ d ∈ ds, B.Own d.activity) ∧
      (ds ≠ [] → Deed.nests a ≤ (Deed.built a w ds).length) := by
  cases is with
  | require x =>
    obtain ⟨s, u, leads, requires⟩ := require_leads stands x
    have runs := leads.runs.mp runs
    cases requires with
    | cached name entry =>
      obtain ⟨rfl, -, rfl⟩ := runs_done.mp runs
      exact ⟨v, .refl v, fun _ => rfl, .nil (Tends.refl v), by simp, by simp⟩
    | refused reason =>
      obtain ⟨rfl, -, rfl⟩ := runs_fail.mp runs
      exact ⟨w, .refl w, fun _ => rfl, .nil (tends_failing w _), by simp, by simp⟩
    | @built k item key loaded new =>
      have first : Deed.built (.require B.manager x) w ds = [k] := by
        have compiled : (B.staff host H).own (.compileStage (.obj .manager B.manager) item) :=
          .compile item
        rcases runs_bind.mp runs with ⟨_, ds₁, ds₂, _, rfl, one, -⟩ | ⟨e, -, one⟩
        all_goals
          obtain ⟨⟨b, x, p, y, es⟩, rfl, is, -⟩ := (runs_perform compiled).mp one
          cases is
          simp [Deed.built, key]
      refine ⟨B.shed w k, first ▸ sheds_shed stands loaded, cached?_shed k, ?_, ?_, ?_⟩
      · exact strung_within calm (fun _ => trivial) id runs (within_building item)
      · exact fun d mem => (each_of_runs (fun _ => trivial) runs (within_building item) d mem).1
      · simp [first, Deed.nests]
  | called reading x =>
    have runs := (called_leads reading x).runs.mp runs
    obtain ⟨d, rfl, is, rfl, -, rfl⟩ := (runs_perform (P := B.staff host H) (.require x)).mp runs
    refine ⟨d.before, by rw [Deed.built_other rfl]; exact .refl _, fun _ => rfl, ?_,
      by simp [is, Own.require], by simp [Deed.nests]⟩
    exact .cons (Tends.refl _) (.nil (Tends.refl _))
  | compile x =>
    have within := within_compile (B := B) (w := w) (.obj .manager B.manager) x
    refine ⟨w, by rw [Deed.built_other rfl]; exact .refl _, fun _ => rfl, ?_, ?_, by simp [Deed.nests]⟩
    · exact strung_within calm (fun _ => trivial) id runs within
    · exact fun d mem => (each_of_runs (fun _ => trivial) runs within d mem).1
  | link r => exact absurd rfl (unlinking r)

theorem parts_of_runs (is : B.Own a) (stands : B.Stands w)
    (runs : (B.staff host H).Runs (host.meaning a) w ds o v) :
    ∃ u, B.Sheds w (Deed.built a w ds) u ∧ Strung B.Spares u ds v ∧ (∀ d ∈ ds, B.Own d.activity) ∧
      (ds ≠ [] → Deed.nests a ≤ (Deed.built a w ds).length) := by
  by_cases unlinking : ∀ r, a ≠ .invoke (.library .linkModule) [.obj .manager B.manager, .obj .module r]
  · obtain ⟨u, sheds, -, strung, owned, nests⟩ := parts_of_unlinking calm is stands unlinking runs
    exact ⟨u, sheds, strung.mono Tends.spares, owned, nests⟩
  · obtain ⟨r, rfl⟩ := not_forall_not.mp unlinking
    have runs := (link_leads _).runs.mp runs
    have within := within_linker (B := B) r w
    refine ⟨w, by rw [Deed.built_other rfl]; exact .refl _, ?_, ?_, by simp [Deed.nests]⟩
    · exact strung_of_runs Spares.refl Spares.trans (fun _ => trivial) id
        (fun _ _ answers => Tends.spares fun _ => calm _ answers) runs within
    · exact fun d mem => (each_of_runs (fun _ => trivial) runs within d mem).1

/-- Every name is compiled once at most, and only if it is loaded; so calls do not stand within one
another more often than there are loaded names. -/
theorem sheds_of_plays {d : Deed} (plays : (B.staff host H).Plays d) (is : B.Own d.activity)
    (stands : B.Stands d.before) : B.Sheds d.before d.compiled d.after ∧
      d.height ≤ (B.loaded d.before).card + 1 := by
  induction plays with
  | @intro a w o v ds runs _ ih =>
    obtain ⟨u, sheds, strung, owned, nests⟩ := parts_of_runs calm is stands runs
    have standing := sheds.toLasts.stands stands
    obtain ⟨done, reached⟩ := sheds_of_strung strung standing fun d mem stands =>
      (ih d mem (owned d mem) stands).1
    refine ⟨sheds.trans done, ?_⟩
    show Deed.nests a + Deed.heightAll ds ≤ (B.loaded w).card + 1
    by_cases none : ds = []
    · subst none
      have one : Deed.nests a ≤ 1 := by unfold Deed.nests; split <;> decide
      simp only [Deed.heightAll]
      omega
    · have card : (Deed.built a w ds).length + (B.loaded u).card ≤ (B.loaded w).card := sheds.card
      have nested : Deed.nests a ≤ (Deed.built a w ds).length := nests none
      have deepest : Deed.heightAll ds ≤ (B.loaded u).card + 1 := Deed.heightAll_le.mpr fun d mem => by
        obtain ⟨ks, before⟩ := reached d mem
        have height := (ih d mem (owned d mem) (before.toLasts.stands standing)).2
        have fewer := Finset.card_le_card before.subset
        exact height.trans (by omega)
      omega

/-- Whatever is done within a deed, the records that were taken out for it are gone. -/
theorem sheds_inside {c d : Deed} (inside : c.Inside d) (plays : (B.staff host H).Plays d)
    (is : B.Own d.activity) (stands : B.Stands d.before) :
    (B.staff host H).Plays c ∧ B.Own c.activity ∧
      ∃ ks, B.Sheds d.before (Deed.built d.activity d.before d.parts ++ ks) c.before := by
  induction inside with
  | @part d mem =>
    obtain ⟨u, sheds, strung, owned, -⟩ := parts_of_runs calm is stands plays.runs
    have each := fun e mem stands => (sheds_of_plays calm (plays.part mem) (owned e mem) stands).1
    obtain ⟨ks, before⟩ := (sheds_of_strung strung (sheds.toLasts.stands stands) each).2 c mem
    exact ⟨plays.part mem, owned c mem, ks, sheds.trans before⟩
  | @deeper m d mem _ ih =>
    obtain ⟨u, sheds, strung, owned, -⟩ := parts_of_runs calm is stands plays.runs
    have each := fun e mem stands => (sheds_of_plays calm (plays.part mem) (owned e mem) stands).1
    obtain ⟨ks, before⟩ := (sheds_of_strung strung (sheds.toLasts.stands stands) each).2 m mem
    have here := sheds.trans before
    obtain ⟨play, own, js, within⟩ := ih (plays.part mem) (owned m mem) (here.toLasts.stands stands)
    exact ⟨play, own, _, List.append_assoc .. ▸ here.trans within⟩

/-! ## An end -/

/-- Code comes to its end if the activities that it leads to do, which have less before them. -/
theorem exists_within {G : Bounds} (granted : ∀ w, G.granted w)
    (writes : ∀ {u v}, G.writes u v → B.Spares u v) {r : Routine Value} (stands : B.Stands w)
    (answers : (B.staff host H).Answers r w) (within : r.Within G w)
    (less : ∀ b u, B.Own b → G.calls b → B.Stands u → (B.loaded u).card ≤ (B.loaded w).card →
      (B.staff host H).Answers (host.meaning b) u →
        ∃ d, d.activity = b ∧ d.before = u ∧ (B.staff host H).Plays d) :
    ∃ ds o v, (B.staff host H).Runs r w ds o v ∧ ∀ d ∈ ds, (B.staff host H).Plays d := by
  have lasting {u v : World} {ks : List Key} (sheds : B.Sheds u ks v)
      (now : B.Stands u ∧ (B.loaded u).card ≤ (B.loaded w).card) :
      B.Stands v ∧ (B.loaded v).card ≤ (B.loaded w).card :=
    ⟨sheds.toLasts.stands now.1, (Finset.card_le_card sheds.subset).trans now.2⟩
  refine exists_runs (J := fun u => B.Stands u ∧ (B.loaded u).card ≤ (B.loaded w).card) granted
    (fun now change => lasting (writes change now.1) now)
    (fun now _ _ answered => lasting (calm _ answered).sheds now) ?_ answers within ⟨stands, le_rfl⟩
  intro b u is calls now answers
  obtain ⟨d, rfl, rfl, plays⟩ := less b u is calls now.1 now.2 answers
  exact ⟨d, rfl, rfl, plays, lasting (sheds_of_plays calm plays is now.1).1 now⟩

theorem exists_plays (n : Nat) : ∀ a w, B.Own a → B.Stands w → B.rank w a < n →
    (B.staff host H).Answers (host.meaning a) w →
      ∃ d, d.activity = a ∧ d.before = w ∧ (B.staff host H).Plays d := by
  -- the bound goes down with every activity; where `require` starts anew, a record has been taken out
  induction n with
  | zero => exact fun _ _ _ _ never => absurd never (Nat.not_lt_zero _)
  | succ n ih =>
    intro a w is stands low answers
    suffices ∃ ds o v, (B.staff host H).Runs (host.meaning a) w ds o v ∧
        ∀ d ∈ ds, (B.staff host H).Plays d by
      obtain ⟨ds, o, v, runs, each⟩ := this
      exact ⟨.mk a w o v ds, rfl, rfl, .intro runs each⟩
    cases is with
    | require x =>
      obtain ⟨s, u, leads, requires⟩ := require_leads stands x
      simp only [show host.meaning (.require B.manager x) = Manager.require B.manager x from rfl,
        leads.runs]
      cases requires with
      | cached => exact ⟨[], _, _, runs_done.mpr ⟨rfl, rfl, rfl⟩, by simp⟩
      | refused => exact ⟨[], _, _, runs_fail.mpr ⟨rfl, rfl, rfl⟩, by simp⟩
      | @built k item key loaded new =>
        have sheds := sheds_shed stands loaded
        have fewer := sheds.card
        refine exists_within calm (fun _ => trivial) Tends.spares (sheds.toLasts.stands stands)
          (answers.leads leads) (within_building item) fun b u is _ stands few answers => ?_
        refine ih b u is stands ?_ answers
        have high := rank_le (w := u) is
        simp only [rank, List.length_singleton] at low fewer
        omega
    | called reading x =>
      have answers := answers.leads (called_leads reading x)
      have below : B.rank w (.require B.manager x) < n := by
        simp only [rank] at low ⊢
        omega
      obtain ⟨d, is, rfl, plays⟩ := ih (.require B.manager x) w (.require x) stands below
        fun b u reaches => answers b u (.inside (.require x) reaches)
      refine ⟨[d], d.outcome, d.after, (called_leads reading x).runs.mpr ?_, by simpa using plays⟩
      exact (runs_perform (P := B.staff host H) (.require x)).mpr ⟨d, rfl, is, rfl, rfl, rfl⟩
    | compile x =>
      refine exists_within calm (fun _ => trivial) Tends.spares stands answers (within_compile _ x) ?_
      rintro b u is ⟨f, args, rfl⟩ stands few answers
      refine ih _ u is stands ?_ answers
      have high : B.rank u (.invoke f args) ≤ 4 * (B.loaded u).card + 2 := by
        unfold rank; split <;> simp_all
      simp only [rank] at low
      omega
    | link r =>
      obtain ⟨ds, o, v, runs, each⟩ := exists_within calm (fun _ => trivial) id stands
        (answers.leads (link_leads _)) (within_linker r w) fun b u is calls stands few answers => by
          refine ih b u is stands ?_ answers
          have high : B.rank u b ≤ 4 * (B.loaded u).card := by
            rcases calls with ⟨x, rfl⟩ | ⟨f, codes, rfl⟩
            · exact le_rfl
            · cases is
          simp only [rank] at low
          omega
      exact ⟨ds, o, v, (link_leads _).runs.mpr runs, each⟩

end

end Bench
end AsyncImport
