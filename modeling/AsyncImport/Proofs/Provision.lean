import AsyncImport.Proofs.Linking

/-!
# Providing modules

Whatever builds the module of a name leaves it in the cache, and announces it when it puts it there.
-/

namespace AsyncImport.Desk

open Site Edit Change Protocol Protocol.Course

variable {S : Desk} {u v w : World} {host : Host} {α β : Type} {a : Option Activity}
  {scope : String → Prop}

/-! ## Compiling -/

def Suits (S : Desk) (w : World) (name module : Value) : Prop :=
  ∃ s, name = .str s ∧ ∀ r, module = .obj .module r → S.Linkable w r ∧ (w.heap.get r).name = s

theorem Suits.mono {name module : Value} (suits : S.Suits w name module) (lasting : S.Lasting w v) :
    S.Suits v name module := by
  obtain ⟨s, is, all⟩ := suits
  refine ⟨s, is, fun r same => ?_⟩
  obtain ⟨linkable, rfl⟩ := all r same
  exact ⟨linkable.mono lasting, linkable.name lasting⟩

theorem Chronicle.isIn (chronicle : S.Chronicle none w) {p : Phase} {name : Value}
    (run : (Loader.isIn S.loader p name).run w = (.ok true, v)) : ∃ s label item,
      name = .str s ∧ S.record? w (.text s) = some ⟨label, .phase p, item⟩ ∧
        Belongs w s ⟨label, .phase p, item⟩ ∧ v = w := by
  obtain ⟨s, label, item, is, found, same⟩ := isIn_filed chronicle.stands
    (fun found => (chronicle.filed found).imp fun _ => And.left) run
  obtain ⟨r, text, belongs⟩ := chronicle.filed found
  cases text
  exact ⟨s, label, item, is, found, belongs, same⟩

theorem chronicling_remove {s : String} {label item : Value} {p : Phase}
    (found : S.record? w (.text s) = some ⟨label, .phase p, item⟩) :
    S.chronicling.Does (Loader.remove S.loader (.str s)) w fun x _ => x = item := by
  refine does_fine fun chronicle => does_ok (run_remove chronicle.stands s) (fun chronicle => ?_)
    fun _ => ?_
  · have proceeds := proceeds_removed chronicle.stands (.text s)
    exact ⟨proceeds, Chronicle.continued chronicle proceeds.toContinues⟩
  · unfold Store.item?
    rw [show (w.heap.get S.store).records.get? (.text s) = _ from found]
    rfl

theorem recites_compile (telling : S.Telling w) (name : Value) :
    S.Recites host scope a (Loader.compile S.loader name) (Ok fun x v => S.Suits v name x) w := by
  unfold Loader.compile
  refine recites_first telling fun loaded v run recounts => ?_
  cases loaded with
  | true =>
    obtain ⟨s, label, item, rfl, found, belongs, rfl⟩ := telling.chronicle.isIn run
    refine recites_doing telling (chronicling_remove found) fun x v recounts is => ?_
    subst is
    refine recites_first recounts.telling fun loader u _ later => ?_
    refine Goes.mono (recites_perform later.telling (by trivial) fun never => never.elim) fun o y last brings => ?_
    cases o with
    | error e => trivial
    | ok module =>
      obtain ⟨d, rfl, made⟩ := brings
      refine ⟨s, rfl, fun r is => ?_⟩
      obtain ⟨linkable, same⟩ := made r is
      have named : (y.heap.get d).name = .str s := by
        cases belongs with
        | loaded bears =>
          exact ((recounts.trans later).trans last).lasting.named (bears d rfl)
      exact ⟨linkable, by simpa using same.symm.trans named⟩
  | false =>
    refine recites_first recounts.telling fun m v _ recounts => ?_
    refine recites_first recounts.telling fun known v _ recounts => ?_
    cases known <;>
      exact recites_first recounts.telling fun text v _ recounts => goes_raise recounts.telling

theorem recites_compileTwice (telling : S.Telling w) (name : Value) :
    S.Recites host scope a (Loader.compileTwice S.loader name)
      (Ok fun x v => ∀ y, x = some y → S.Suits v name y) w := by
  unfold Loader.compileTwice
  refine recites_first telling fun loaded v _ recounts => ?_
  cases loaded with
  | false => exact goes_done recounts.telling fun y is => by cases is
  | true =>
    refine goes_bind (recites_compile recounts.telling name) fun x v recounts suits => ?_
    refine recites_first (Recounts.telling recounts) fun loaded v _ recounts => ?_
    have suits := suits.mono recounts.lasting
    cases loaded with
    | false => exact goes_done recounts.telling fun y is => by cases is; exact suits
    | true =>
      refine recites_first recounts.telling fun _ v _ recounts => ?_
      refine goes_bind (recites_compile recounts.telling name) fun x v recounts suits => ?_
      exact goes_done (Recounts.telling recounts) fun y is => by cases is; exact suits

theorem recites_suited {name module : Value} (telling : S.Telling w) (suits : S.Suits w name module)
    (among : S.holds → ∀ s, scope s → name ≠ .str s) :
    S.Recites host scope a (Loader.link S.loader module) (Ok fun x v => S.Provided v name x) w := by
  obtain ⟨s, rfl, all⟩ := suits
  exact recites_link telling all fun holds n mem same => among holds n mem (same ▸ rfl)

theorem recites_buildNow (telling : S.Telling w) (name : Value)
    (among : S.holds → ∀ s, scope s → name ≠ .str s) :
    S.Recites host scope a (Loader.buildNow S.loader name) (Ok fun x v => S.Provided v name x) w :=
  goes_bind (recites_compile telling name) fun _ _ recounts suits =>
    recites_suited (Recounts.telling recounts) suits among

/-! ## Requiring -/

theorem find_ok {name : Value} {found : Option (Ref .module)}
    (run : (Manager.find S.manager name).run w = (.ok found, v)) :
    v = w ∧ found = name.str?.bind (S.entry? w) := by
  unfold Manager.find at run
  simp only [Quiet.run_bind, run_bind, key, Quiet.run_heap] at run
  cases known : w.heap.key? name with
  | none =>
    rw [known] at run
    cases run
  | some k =>
    rw [known] at run
    cases run
    exact ⟨rfl, rfl⟩

theorem provided_found {name : Value} {r : Ref .module}
    (found : some r = name.str?.bind (S.entry? w)) : S.Provided w name (.obj .module r) := by
  cases name with
  | str s => exact ⟨s, r, rfl, rfl, cached_of_entry found.symm, fun _ => found.symm⟩
  | _ => cases found

theorem recites_require (telling : S.Telling w) (name : Value) :
    S.Recites host (S.Cached w) a (Manager.require S.manager name)
      (Ok fun x v => S.Provided v name x) w := by
  unfold Manager.require
  refine recites_first telling fun found v run recounts => ?_
  obtain ⟨rfl, is⟩ := find_ok run
  cases found with
  | some r => exact goes_done telling (provided_found is)
  | none =>
    refine recites_first telling fun m v run recounts => ?_
    cases run
    rw [telling.chronicle.stands.serves]
    refine recites_first telling fun loaded u run recounts => ?_
    cases loaded with
    | false => exact recites_first recounts.telling fun text v _ recounts => goes_raise recounts.telling
    | true =>
      obtain ⟨s, -, -, rfl, -, -, rfl⟩ := telling.chronicle.isIn run
      refine recites_buildNow telling _ fun _ n cached same => cached ?_
      cases same
      exact is.symm

/-! ## Building -/

theorem listed {xs : List Value} {x : Value} (run : (newList xs).run w = (.ok x, v)) :
    ∃ l : Ref .list, x = .obj .list l ∧ v.heap.Live l := by
  obtain ⟨l, u, new, run⟩ := ok_of_bind run
  cases run
  exact ⟨l, rfl, (made new).1⟩

theorem live_quiet {x : Quiet α} {o : Except Fault α} {k : Kind} {r : Ref k}
    (run : x.run w = (o, v)) (live : w.heap.Live r) : v.heap.Live r := by
  have near := x.near w
  rw [run] at near
  exact near.still.evolves.live live

theorem linkable_module {name : Value} {o : Module.Options} {r : Ref .module}
    (run : (Module.create name o).run w = (.ok r, v)) : S.Linkable v r := by
  unfold Module.create at run
  split at run
  case h_2 => cases run
  next s =>
  dsimp only at run
  split at run
  · obtain ⟨_, u, never, -⟩ := ok_of_bind run
    cases never
  obtain ⟨format, u, -, run⟩ := ok_of_bind run
  split at run <;> obtain ⟨items, u, -, run⟩ := ok_of_bind run <;>
    obtain ⟨deps, u, new, run⟩ := ok_of_bind run <;>
    obtain ⟨truth, u, asked, run⟩ := ok_of_bind run <;> split at run <;>
    obtain ⟨dict, u, read, run⟩ := ok_of_bind run <;>
    obtain ⟨settings, u, kept, run⟩ := ok_of_bind run <;>
    obtain ⟨l, rfl, live⟩ := listed new <;>
    have live := live_quiet kept (live_quiet read (live_quiet asked live)) <;>
    have last := live_quiet run live <;>
    obtain ⟨made, is⟩ := made run <;>
    exact ⟨made, fun _ => ⟨_, l, by rw [is], last, rfl⟩⟩

theorem suits_ofDraft {d : Ref .draft} {s : String} {r : Ref .module}
    (run : (Module.ofDraft d).run w = (.ok r, v)) (named : (w.heap.get d).name = .str s) :
    S.Suits v (.str s) (.obj .module r) := by
  obtain ⟨-, name⟩ := named_ofDraft run
  refine ⟨s, rfl, fun q is => ?_⟩
  cases is
  unfold Module.ofDraft at run
  obtain ⟨c, u, -, run⟩ := ok_of_bind run
  obtain ⟨options, u, -, run⟩ := ok_of_bind run
  obtain ⟨settings, u, -, run⟩ := ok_of_bind run
  exact ⟨linkable_module run, by simpa using name.symm.trans named⟩

theorem recites_registered (telling : S.Telling w) (s : String) (empty : S.holds → ∀ s, ¬ scope s) :
    S.Recites host scope a (do
      let registration ← Loader.startPending S.loader (.str s)
      let draft ← Routine.awaitValue registration
      Loader.link S.loader (.obj .module (← Module.ofDraft (← asDraft draft))) : Routine Value)
        (Ok fun x v => S.Provided v (.str s) x) w := by
  refine recites_doing telling (does_startPending trivial s) fun x v recounts given => ?_
  obtain ⟨f, t, item, rfl, ⟨label, found⟩, activity, -⟩ := given
  obtain ⟨r, text, belongs⟩ := telling.chronicle.filed found
  obtain rfl : s = r := by simpa using text
  cases belongs with
  | @pending _ d named =>
    refine goes_bind (goes_result recounts.telling (fun _ => empty)
      (Q := Ok fun x u => x = .obj .draft d) fun o u later answers => ?_) fun draft u later is => ?_
    · cases answers with
      | done status =>
        exact (Recounts.telling later).chronicle.done
          (activity_endures (Recounts.lasting later).endures activity) status
      | _ => trivial
    · subst is
      refine recites_first (Recounts.telling later) fun e v run last => ?_
      cases run
      refine recites_first (Recounts.telling later) fun r y run last => ?_
      have named := (recounts.trans later).lasting.named named
      exact recites_suited last.telling (suits_ofDraft run named) fun holds n mem => absurd mem (empty holds n)

theorem recites_build (telling : S.Telling w) (empty : S.holds → ∀ s, ¬ scope s) (name : Value) :
    S.Recites host scope a (Loader.build S.loader name) (Ok fun x v => S.Provided v name x) w := by
  unfold Loader.build
  refine recites_first telling fun m v run recounts => ?_
  rw [run_managerOf telling.chronicle.stands] at run
  cases run
  refine recites_first telling fun found v run recounts => ?_
  obtain ⟨rfl, is⟩ := find_ok run
  split
  · exact goes_done telling (provided_found is)
  refine recites_first telling fun item v run recounts => ?_
  split
  · obtain ⟨s, label, rfl, found, rfl⟩ := itemIn_filed telling.chronicle.stands
      (fun found => (telling.chronicle.filed found).imp fun _ => And.left) run
    obtain ⟨t, rfl⟩ := S.chronicling.inFlight telling.chronicle found
    refine goes_bind (goes_result telling (Q := Any) (fun _ => empty) fun _ _ _ _ => trivial)
      fun _ v recounts _ => ?_
    exact recites_perform (Recounts.telling recounts) rfl fun _ => empty
  refine goes_bind (recites_compileTwice recounts.telling name) fun compiled v recounts suits => ?_
  refine recites_first (Recounts.telling recounts) fun pending u run later => ?_
  cases pending with
  | true =>
    obtain ⟨s, -, -, rfl, -, -, rfl⟩ := (Recounts.telling recounts).chronicle.isIn run
    cases compiled with
    | some module =>
      refine goes_bind (recites_confiding later.telling
        (Routine.within_reportRegistration telling_confiding _ _ trivial)) fun _ y last _ => ?_
      exact recites_registered (Recounts.telling last) s empty
    | none => exact recites_registered later.telling s empty
  | false =>
    cases compiled with
    | some module =>
      have suits := (suits module rfl).mono later.lasting
      exact recites_suited later.telling suits fun holds n mem => absurd mem (empty holds n)
    | none => exact recites_first later.telling fun text v _ recounts => goes_raise recounts.telling

theorem recites_buildReported (telling : S.Telling w) (empty : S.holds → ∀ s, ¬ scope s) (name : Value) :
    S.Recites host scope a (Loader.buildReported S.loader name)
      (Ok fun x v => S.Provided v name x) w := by
  unfold Loader.buildReported Routine.rescue
  refine goes_andThen (recites_build telling empty name)
    (fun x v recounts provided => goes_done (Recounts.telling recounts) provided)
    fun e v recounts _ => ?_
  have telling := Recounts.telling recounts
  show S.Recites host scope a (if (v.heap.get e).ordinary then _ else _) _ v
  split
  · refine recites_first telling fun m v _ recounts => ?_
    exact goes_bind (recites_confiding recounts.telling
      (Routine.within_report telling_confiding m _ _ trivial)) fun _ v recounts _ =>
        goes_fail (Recounts.telling recounts) trivial
  · exact goes_fail telling trivial

theorem recites_buildFetched (telling : S.Telling w) (empty : S.holds → ∀ s, ¬ scope s) (name : Value)
    (f : Ref .future) :
    S.Recites host scope a (Loader.buildFetched S.loader name (.obj .future f))
      (Ok fun x v => S.Provided v name x) w :=
  goes_bind (goes_result telling (Q := Any) (fun _ => empty) fun _ _ _ _ => trivial)
    fun _ _ recounts _ => recites_buildReported (Recounts.telling recounts) empty name

end AsyncImport.Desk
