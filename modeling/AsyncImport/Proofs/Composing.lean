import AsyncImport.Proofs.Restoring

/-!
# Drafts survive as mappings

A draft that was made without an attribute named as its content, and then took over options and was given
content, in any order, is restored from what it is written as. So is a finished draft from the settings of
the module that is made of it.
-/

namespace AsyncImport

open Edit

variable {h g : Heap} {w v u : World} {d : Ref .draft} {s : Sheet} {α β : Type}

/-! ## What writing a draft leaves alone -/

def Quiet.Grows (x : Quiet α) : Prop :=
  ∀ ⦃w v : World⦄ ⦃a : α⦄, x.run w = (.ok a, v) → w.heap.Grown v.heap

namespace Quiet

theorem grows_pure (a : α) : (pure a : Quiet α).Grows := by
  intro w v b run
  cases run
  exact .refl _

theorem grows_throw (f : Refusal) : (throw f : Quiet α).Grows := by
  intro w v b run
  cases run

theorem grows_bind {x : Quiet α} {f : α → Quiet β} (first : x.Grows) (next : ∀ a, (f a).Grows) :
    (x >>= f).Grows := by
  intro w v b run
  obtain ⟨a, u, one, rest⟩ := bind_ok run
  exact (first one).trans (next a rest)

theorem grows_of_reads {x : Quiet α} {find : Heap → Option α} (reads : x.run.Reads find) : x.Grows := by
  intro w v a run
  rcases reads w with ⟨b, -, same⟩ | ⟨-, f, same⟩ <;> cases run.symm.trans same
  exact .refl _

theorem grows_foldlM {γ : Type} {f : α → γ → Quiet α} (each : ∀ a c, (f a c).Grows) (cs : List γ)
    (a : α) : (cs.foldlM f a).Grows := by
  induction cs generalizing a with
  | nil => exact grows_pure a
  | cons c cs ih =>
    rw [List.foldlM_cons]
    exact grows_bind (each a c) ih

theorem grows_newList (vs : List Value) : (newList vs).Grows := by
  intro w v x run
  cases run
  exact .alloc _ (k := .list) vs (by decide)

theorem grows_heap : heap.Grows := by
  intro w v x run
  cases run
  exact .refl _

theorem grows_read {k : Kind} (r : Ref k) : (read r).Grows := by
  intro w v x run
  cases run
  exact .refl _

theorem grows_dictOf (x : Value) : (dictOf x).Grows := by
  unfold dictOf
  refine grows_bind grows_heap fun h => ?_
  split
  · exact grows_pure _
  · refine grows_bind (grows_of_reads (reads_items x)) fun pairs => grows_foldlM (fun c pair => ?_) pairs _
    refine grows_bind (grows_of_reads (reads_items pair)) fun entry => ?_
    split
    · exact grows_bind (grows_of_reads (reads_key _)) fun k => grows_pure _
    · exact grows_throw _

theorem grows_toOptions (d : Ref .draft) : (Draft.toOptions d).Grows := by
  unfold Draft.toOptions
  refine grows_bind (grows_read d) fun c => grows_bind (grows_dictOf _) fun a => ?_
  refine grows_bind (grows_of_reads (reads_items _)) fun deps => grows_bind (grows_newList deps) fun l => ?_
  refine grows_bind (grows_of_reads (reads_items _)) fun ps => grows_bind (grows_newList ps) fun p => ?_
  exact grows_pure _

end Quiet

/-! ## How a draft comes to be -/

namespace Draft

def optionsIn (options : Value) : Quiet Dict := do
  match options with
  | .obj .draft other => toOptions other
  | .obj .dict r => read r
  | _ => throw .missing

theorem grows_optionsIn (options : Value) : (optionsIn options).Grows := by
  unfold optionsIn
  split
  · exact Quiet.grows_toOptions _
  · exact Quiet.grows_read _
  · exact Quiet.grows_throw _

theorem run_configure {options : Value} {c : Dict} (given : (optionsIn options).run w = (.ok c, u)) :
    configure d options w = (configureFrom d c >>= fun _ => pure d) u := by
  unfold optionsIn at given
  unfold configure
  split at given
  · next other =>
    show (liftM (toOptions other) >>= fun o => configureFrom d o >>= fun _ => pure d) w = _
    rw [run_bind, run_lift, given]
  · next r =>
    show (liftM (read r) >>= fun o => configureFrom d o >>= fun _ => pure d) w = _
    rw [run_bind, run_lift, given]
  · cases given

end Draft

structure Heap.Spares (h g : Heap) (d : Ref .draft) : Prop where
  live : g.Live d
  same : g.get d = h.get d
  list : ∀ r : Ref .list, h.Live r → .obj .list r = (h.get d).deps ∨ .obj .list r = (h.get d).plugins →
    g.Live r ∧ g.get r = h.get r
  dict : ∀ r : Ref .dict, h.Live r → .obj .dict r = (h.get d).attributes →
    g.Live r ∧ g.get r = h.get r ∧ ∀ e ∈ (h.get r).entries, g.key? e.2.1 = h.key? e.2.1

/-- A draft that was made, and then took over options and was given content, in any order. An attribute that
it was made with does not bear the name of a field, and is not its content. -/
inductive Draft.Composed (d : Ref .draft) : World → Prop
  | made {w v : World} {name : Value} {o : Draft.Options} (own : ∀ e ∈ o.attributes, e.1 ∉ Draft.reserved)
      (run : (Draft.create name o).run w = (.ok d, v)) : Composed d v
  | configured {w v u : World} {options : Value} {c : Dict} {e : Ref .draft} (before : Composed d w)
      (given : (Draft.optionsIn options).run w = (.ok c, u))
      (content : ∀ p ∈ c.items, p.1 = .str "content" → p.2.IsContent)
      (run : Draft.configure d options w = (.ok e, v)) : Composed d v
  | source {w v : World} {x : Value} (before : Composed d w)
      (run : (Draft.setSource d x).run w = (.ok (), v)) : Composed d v
  | factory {w v : World} {x : Value} (before : Composed d w)
      (run : (Draft.setFactory d x).run w = (.ok (), v)) : Composed d v
  | code {w v : World} {x : Value} (before : Composed d w)
      (run : (Draft.setCode d x).run w = (.ok (), v)) : Composed d v
  | meanwhile {w v : World} (before : Composed d w) (spared : w.heap.Spares v.heap d) : Composed d v

namespace Draft

theorem content_of_fits {o : Options} {name : Value} (fits : o.Fits name h) : o.content.IsContent := by
  unfold Options.content Options.finish
  cases o.code with
  | some x => trivial
  | none =>
    rw [Option.map_none, Option.getD_none]
    split
    · split
      · trivial
      · next given => exact fits.source.resolve_left given
    · next given => exact fits.factory.resolve_left given

theorem sound_of_create {name : Value} {o : Options} (own : ∀ e ∈ o.attributes, e.1 ∉ reserved)
    (run : (create name o).run w = (.ok d, v)) : ∃ s, v.heap.Shows d s ∧ s.Sound := by
  by_cases fits : o.Fits name w.heap
  · obtain ⟨e, u, made, drafted⟩ := create_takes fits
    cases run.symm.trans made
    refine ⟨_, drafted.shows, fits.name, content_of_fits fits, fun t mem => ?_⟩
    exact (Dict.find?_foldl_absent (fun e there same => own e there (same ▸ mem)) {}).trans rfl
  · obtain ⟨f, u, made⟩ := create_refuses fits
    cases run.symm.trans made

end Draft

theorem Heap.Shows.drafted (shows : h.Shows d s) : Heap.Drafted { tuples := h.tuples } h d s where
  shows := shows
  grown := {
    live := fun {k} r live => by
      cases k
      case tuple => exact live
      all_goals exact absurd live (Nat.not_lt_zero _)
    get := fun {k} r live => by
      cases k
      case tuple => rfl
      all_goals exact absurd live (Nat.not_lt_zero _)
    tuples := rfl }
  new := Nat.not_lt_zero _
  own _ _ := Nat.not_lt_zero _

theorem Heap.Spares.shows (spares : h.Spares g d) (shows : h.Shows d s) : g.Shows d s where
  live := spares.live
  tells := by
    obtain ⟨-, tells⟩ := shows
    rw [spares.same]
    exact { tells with
      deps := by
        obtain ⟨r, is, live, holds⟩ := tells.deps
        obtain ⟨alive, same⟩ := spares.list r live (.inl is.symm)
        exact ⟨r, is, alive, same.trans holds⟩
      plugins := by
        obtain ⟨r, is, live, holds⟩ := tells.plugins
        obtain ⟨alive, same⟩ := spares.list r live (.inr is.symm)
        exact ⟨r, is, alive, same.trans holds⟩
      attributes := by
        obtain ⟨r, is, live, filed, holds⟩ := tells.attributes
        obtain ⟨alive, same, keys⟩ := spares.dict r live is.symm
        refine ⟨r, is, alive, ?_, same ▸ holds⟩
        rw [same]
        exact ⟨filed.distinct, fun e mem => (keys e mem).trans (filed.filed e mem)⟩ }

namespace Draft

theorem sound_of_set {label x : Value} (shows : w.heap.Shows d s) (sound : s.Sound)
    (content : label = .str "content" → x.IsContent) (run : setOption d label x w = (.ok (), v)) :
    ∃ t, v.heap.Shows d t ∧ t.Sound := by
  have all : [(label, x)].forM (fun e => setOption d e.1 e.2) w = (.ok (), v) := by
    rw [run_forM_cons, run]
    rfl
  obtain ⟨t, drafted, sound⟩ := sound_forM shows.drafted sound (fun e mem is => by
    cases List.mem_singleton.mp mem
    exact content is) all
  exact ⟨t, drafted.shows, sound⟩

theorem Composed.sound (composed : Composed d w) : ∃ s, w.heap.Shows d s ∧ s.Sound := by
  -- Each assignment is the option of the same name, set on its own.
  induction composed with
  | made own run => exact sound_of_create own run
  | configured before given content run ih =>
    obtain ⟨s, shows, sound⟩ := ih
    have shows := shows.mono (grows_optionsIn _ given)
    rw [run_configure given] at run
    obtain ⟨_, _, taken, last⟩ := bind_ok run
    cases last
    obtain ⟨t, drafted, sound⟩ := sound_forM shows.drafted sound content taken
    exact ⟨t, drafted.shows, sound⟩
  | @source w v x before run ih =>
    obtain ⟨s, shows, sound⟩ := ih
    have run : setOption d (.str "source") x w = (.ok (), v) := run
    exact sound_of_set shows sound (fun never => absurd never (by decide)) run
  | @factory w v x before run ih =>
    obtain ⟨s, shows, sound⟩ := ih
    have run : setOption d (.str "factory") x w = (.ok (), v) := run
    exact sound_of_set shows sound (fun never => absurd never (by decide)) run
  | @code w v x before run ih =>
    obtain ⟨s, shows, sound⟩ := ih
    have run : setOption d (.str "code") x w = (.ok (), v) := run
    exact sound_of_set shows sound (fun never => absurd never (by decide)) run
  | meanwhile before spared ih =>
    obtain ⟨s, shows, sound⟩ := ih
    exact ⟨s, spared.shows shows, sound⟩

end Draft

/-! ## There and back -/

namespace Draft

theorem toOptions_writes (shows : w.heap.Shows d s) (sound : s.Sound) :
    ∃ c v, (toOptions d).run w = (.ok c, v) ∧ w.heap.Grown v.heap ∧ Dict.Writes v.heap c s := by
  obtain ⟨a, filed, held, run⟩ := run_toOptions shows
  have one : w.heap.Grown (w.alloc .list s.deps).heap := .alloc _ (k := .list) s.deps (by decide)
  have two : (w.alloc .list s.deps).heap.Grown ((w.alloc .list s.deps).alloc .list s.plugins).heap :=
    .alloc _ (k := .list) s.plugins (by decide)
  have first : (w.alloc .list s.deps).heap.Live (w.heap.fresh .list) := Heap.live_fresh_alloc _ _
  have writes := sound.writes (filed.congr (one.trans two).tuples) held (two.live _ first)
    ((two.get _ first).trans (Heap.get_alloc_fresh _ _)) (Heap.live_fresh_alloc _ _)
    (Heap.get_alloc_fresh _ _)
  exact ⟨_, _, run, one.trans two, writes⟩

def toDict (d : Ref .draft) : Quiet Value := do newDict (← toOptions d)

theorem toDict_writes (shows : w.heap.Shows d s) (sound : s.Sound) :
    ∃ r v, (toDict d).run w = (.ok (.obj .dict r), v) ∧ w.heap.Grown v.heap ∧
      Dict.Writes v.heap (v.heap.get r) s := by
  obtain ⟨c, v, run, grown, writes⟩ := toOptions_writes shows sound
  have next : v.heap.Grown (v.alloc .dict c).heap := .alloc _ (k := .dict) c (by decide)
  refine ⟨v.heap.fresh .dict, v.alloc .dict c, ?_, grown.trans next, ?_⟩
  · unfold toDict
    rw [Quiet.run_bind, run_bind, run]
    rfl
  · rw [show (v.alloc .dict c).heap.get (v.heap.fresh .dict) = c from Heap.get_alloc_fresh _ _]
    exact writes.mono next

end Draft

/-- A module that is made of a draft: one of code and factory is set, as the draft has it. -/
structure Heap.Describes (h : Heap) (m : Ref .module) (s : Sheet) : Prop where
  name : s.name = .str (h.get m).name
  format : (h.get m).format = .format s.format
  deps : ∃ r, (h.get m).deps = .obj .list r ∧ h.Live r ∧ h.get r = s.deps
  content : match s.content with
    | .code x => (h.get m).code = some x ∧ (h.get m).factory = .none
    | .factory x => (h.get m).code = none ∧ (h.get m).factory = x ∧ x ≠ .none
    | _ => False

namespace Module

theorem run_create {n : String} {o : Options} {f : Format} {l : Ref .list} {r : Ref .dict}
    (named : n.isEmpty = false) (format : o.format = .format f) (deps : o.deps = some (.obj .list l))
    (settings : o.settings = .obj .dict r) (counts : (w.heap.get r).size ≠ 0) :
    let u := w.alloc .list (w.heap.get l)
    let v := u.alloc .dict (w.heap.get r)
    (create (.str n) o).run w = (.ok (v.heap.fresh .module), v.alloc .module
      { name := n, code := o.code, format := .format f, deps := .obj .list (w.heap.fresh .list)
        factory := o.factory, settings := .obj .dict (u.heap.fresh .dict) }) := by
  intro u v
  have kept : u.heap.get r = w.heap.get r := Heap.get_alloc_kind _ _ (by decide)
  have truthful : (truthy (.obj .dict r)).run u = (.ok true, u) := by
    have size : u.heap.truthy (.obj .dict r) = true := by
      simpa [Heap.truthy, Heap.length?, kept] using counts
    show ((heap >>= fun h => pure (h.truthy (.obj .dict r))) : Quiet Bool).run u = _
    rw [Quiet.run_bind, run_bind, Quiet.run_heap]
    simp only [size]
    rfl
  unfold create
  dsimp only
  rw [if_neg (by simp [named]), format, deps, settings]
  rw [Quiet.run_bind, run_bind, show (formatOf (.format f)).run w = (.ok (.format f), w) from rfl]
  dsimp only
  rw [Quiet.run_bind, run_bind, Draft.run_itemsOf]
  dsimp only
  rw [Quiet.run_bind, run_bind, Quiet.run_newList]
  dsimp only
  rw [Quiet.run_bind, run_bind, truthful]
  dsimp only
  rw [if_pos rfl, Quiet.run_bind, run_bind, Draft.run_dictOf, kept]
  rfl

theorem finished {c : Draft} (is : c.content = s.content) (sound : s.Sound)
    (compiled : c.isCompiled = true) :
    match s.content with
    | .code x => (if c.isCompiled && c.factory = .none then some c.code else none) = some x ∧
        c.factory = .none
    | .factory x => (if c.isCompiled && c.factory = .none then some c.code else none) = none ∧
        c.factory = x ∧ x ≠ .none
    | _ => False := by
  have content := sound.content
  unfold Draft.isCompiled at compiled ⊢
  unfold Draft.factory Draft.code
  rw [is] at compiled ⊢
  cases known : s.content <;> rw [known] at compiled content
  case code x => exact ⟨rfl, rfl⟩
  case factory x =>
    have some : x ≠ .none := by
      rintro rfl
      cases content
    exact ⟨if_neg (by simp [some]), rfl, some⟩
  all_goals cases compiled

theorem ofDraft_describes (shows : w.heap.Shows d s) (sound : s.Sound)
    (compiled : (w.heap.get d).isCompiled = true) :
    ∃ m v r, (ofDraft d).run w = (.ok m, v) ∧ v.heap.Describes m s ∧
      (v.heap.get m).settings = .obj .dict r ∧ Dict.Writes v.heap (v.heap.get r) s := by
  have tells := shows.tells
  obtain ⟨l, deps, live, listed⟩ := tells.deps
  obtain ⟨c, u, written, grown, writes⟩ := Draft.toOptions_writes shows sound
  obtain ⟨n, named, nonempty⟩ : ∃ n, s.name = .str n ∧ n.isEmpty = false := by
    have proper := sound.name
    cases is : s.name <;> rw [is] at proper
    case str n => exact ⟨n, rfl, by simpa [Value.isName] using proper⟩
    all_goals cases proper
  let t := u.alloc .dict c
  let x := t.alloc .list (t.heap.get l)
  let y := x.alloc .dict c
  let code := if (w.heap.get d).isCompiled && (w.heap.get d).factory = .none
    then some (w.heap.get d).code else none
  let cell : Module :=
    { name := n, code, format := .format s.format, deps := .obj .list (t.heap.fresh .list)
      factory := (w.heap.get d).factory, settings := .obj .dict (x.heap.fresh .dict) }
  have one : u.heap.Grown t.heap := .alloc _ (k := .dict) c (by decide)
  have two : t.heap.Grown x.heap := .alloc _ (k := .list) _ (by decide)
  have three : x.heap.Grown y.heap := .alloc _ (k := .dict) c (by decide)
  have four : y.heap.Grown (y.alloc .module cell).heap := .alloc _ (k := .module) cell (by decide)
  have made : (y.alloc .module cell).heap.get (y.heap.fresh .module) = cell := Heap.get_alloc_fresh _ _
  have kept : t.heap.get (u.heap.fresh .dict) = c := Heap.get_alloc_fresh _ _
  have counts : (t.heap.get (u.heap.fresh .dict)).size ≠ 0 := by
    rw [kept]
    intro none
    have name := writes.name
    unfold Dict.find? Assoc.get? at name
    rw [List.length_eq_zero_iff.mp none] at name
    cases name
  have run := run_create (w := t) (n := n) (o := {
      format := .format s.format, deps := some (.obj .list l), code
      factory := (w.heap.get d).factory, settings := .obj .dict (u.heap.fresh .dict) })
    nonempty rfl rfl rfl counts
  rw [kept] at run
  refine ⟨y.heap.fresh .module, y.alloc .module cell, x.heap.fresh .dict, ?_, ?_, by rw [made], ?_⟩
  · unfold ofDraft
    rw [Quiet.run_bind, run_bind, Quiet.run_read]
    dsimp only
    rw [Quiet.run_bind, run_bind, written]
    dsimp only
    rw [Quiet.run_bind, run_bind, Quiet.run_newDict]
    dsimp only
    rw [tells.name, named, tells.format, deps]
    exact run
  · have alive := Heap.live_fresh_alloc t.heap (k := .list) (t.heap.get l)
    have same : x.heap.get (t.heap.fresh .list) = t.heap.get l := Heap.get_alloc_fresh _ _
    refine ⟨by rw [made, named], by rw [made], ⟨t.heap.fresh .list, by rw [made], ?_, ?_⟩, ?_⟩
    · exact (three.trans four).live _ alive
    · rw [(three.trans four).get _ alive, same, (grown.trans one).get l live, listed]
    · rw [made]
      exact finished tells.content sound compiled
  · have alive : y.heap.Live (x.heap.fresh .dict) := Heap.live_fresh_alloc _ _
    have same : y.heap.get (x.heap.fresh .dict) = c := Heap.get_alloc_fresh _ _
    rw [four.get _ alive, same]
    exact writes.mono (((one.trans two).trans three).trans four)

end Module

/-- A draft survives its form as a mapping, and a finished one survives as the settings of its module. -/
theorem restored (composed : Draft.Composed d w) :
    ∃ s, w.heap.Shows d s ∧
      (∀ name, ∃ e v, (do Draft.coerce (← Draft.toDict d) name : Edit (Ref .draft)) w = (.ok e, v) ∧
        ¬ w.heap.Live e ∧ v.heap.Shows e s ∧ v.heap.Shows d s) ∧
      ((w.heap.get d).isCompiled = true → ∃ m v, (Module.ofDraft d).run w = (.ok m, v) ∧
        v.heap.Describes m s ∧
        ∀ name, ∃ e u, Draft.coerce (v.heap.get m).settings name v = (.ok e, u) ∧ u.heap.Shows e s) := by
  obtain ⟨s, shows, sound⟩ := composed.sound
  refine ⟨s, shows, fun name => ?_, fun compiled => ?_⟩
  · obtain ⟨r, u, written, grown, writes⟩ := Draft.toDict_writes shows sound
    obtain ⟨e, v, made, drafted⟩ := Draft.coerce_written writes sound name
    refine ⟨e, v, ?_, fun live => drafted.new (grown.live e live), drafted.shows,
      shows.mono (grown.trans drafted.grown)⟩
    rw [run_bind, run_lift, written]
    exact made
  · obtain ⟨m, v, r, made, describes, is, writes⟩ := Module.ofDraft_describes shows sound compiled
    refine ⟨m, v, made, describes, fun name => ?_⟩
    obtain ⟨e, u, again, drafted⟩ := Draft.coerce_written writes sound name
    exact ⟨e, u, is ▸ again, drafted.shows⟩

/-- An attribute that was overwritten, a list that was shared and code that was set last are all restored. -/
theorem restored_code :
    let w : World := { heap := { lists := #[[.str "b"]]
                                 dicts := #[Dict.ofTexts [("deps", .obj .list ⟨0⟩), ("size", .int 4)]] } }
    let made := (Draft.create (.str "a") { path := .str "lib/a", attributes := [("size", .int 3)] }).run w
    let configured := Draft.configure ⟨0⟩ (.obj .dict ⟨0⟩) made.2
    let v := ((Draft.setCode ⟨0⟩ (.int 7)).run configured.2).2
    (v.heap.get (⟨0⟩ : Ref .draft)).isCompiled = true ∧
      ∃ s, v.heap.Shows ⟨0⟩ s ∧
        (∀ name, ∃ e u, (do Draft.coerce (← Draft.toDict ⟨0⟩) name : Edit (Ref .draft)) v = (.ok e, u) ∧
          ¬ v.heap.Live e ∧ u.heap.Shows e s ∧ u.heap.Shows ⟨0⟩ s) ∧
        ((v.heap.get (⟨0⟩ : Ref .draft)).isCompiled = true →
          ∃ m u, (Module.ofDraft ⟨0⟩).run v = (.ok m, u) ∧ u.heap.Describes m s ∧
            ∀ name, ∃ e t, Draft.coerce (u.heap.get m).settings name u = (.ok e, t) ∧ t.heap.Shows e s) := by
  intro w made configured v
  have own : ∀ e ∈ [("size", Value.int 3)], e.1 ∉ Draft.reserved := by decide
  have creates : (Draft.create (.str "a") { path := .str "lib/a", attributes := [("size", .int 3)] }).run w =
    (.ok ⟨0⟩, made.2) := rfl
  have first : Draft.Composed ⟨0⟩ made.2 := .made own creates
  have other : ∀ e ∈ (made.2.heap.get (⟨0⟩ : Ref .dict)).items, e.1 ≠ .str "content" := by decide
  have given : (Draft.optionsIn (.obj .dict ⟨0⟩)).run made.2 =
    (.ok (made.2.heap.get (⟨0⟩ : Ref .dict)), made.2) := rfl
  have configures : Draft.configure ⟨0⟩ (.obj .dict ⟨0⟩) made.2 = (.ok ⟨0⟩, configured.2) := rfl
  have second : Draft.Composed ⟨0⟩ configured.2 :=
    .configured first given (fun e mem is => absurd is (other e mem)) configures
  have composed : Draft.Composed ⟨0⟩ v := .code (x := .int 7) second rfl
  exact ⟨rfl, restored composed⟩

end AsyncImport
