import AsyncImport.Proofs.Operating

/-!
# The custody of records

Whatever the library does while a host uses it as it likes, each record in flight is left to its own
task, which settles it in its last step.
-/

namespace AsyncImport.Site

open Edit Change Protocol Protocol.Course

variable {S : Site} {u v w : World} {host : Host} {α β : Type} {a : Option Activity}

abbrev Handles (S : Site) (host : Host) (a : Option Activity) (r : Routine α) (w : World) : Prop :=
  (S.operating host).Goes a r Any w

/-! ## Edits of the file -/

theorem outside_cached (stands : S.Stands w) (s : String) (r : Ref .module) :
    S.Outside w (S.cached w s r) where
  endures := (evolves_cached w s r).endures
  current := rfl
  spares t _ := .ofGet (get_cached t (by decide))
  stands := stands.mono (evolves_cached w s r)
  begun {t a} none task := by
    unfold World.task? at none task
    rw [get_cached t (by decide), none] at task
    cases task
  store := get_cached S.store (by decide)

theorem outside_rewired (stands : S.Stands w) (g : Waits) : S.Outside w (S.rewired w g) where
  endures := (evolves_rewired g w).endures
  current := rfl
  spares t _ := spares_rewired g t
  stands := stands.mono (evolves_rewired g w)
  begun none task := by
    rw [task?_rewired, none] at task
    cases task
  store := get_rewired g S.store (by decide)

theorem filed_outside (booked : S.Booked w) (outside : S.Outside w v) (evolves : w.Evolves v) :
    S.filing.keeps w v :=
  ⟨outside.files (names_kept evolves), booked.refiled outside.refiles⟩

theorem Booked.isIn (booked : S.Booked w) {p : Phase} {name : Value}
    (run : (Loader.isIn S.loader p name).run w = (.ok true, v)) : ∃ s label item,
      name = .str s ∧ S.record? w (.text s) = some ⟨label, .phase p, item⟩ ∧ v = w :=
  isIn_filed booked.stands (fun found => (booked.records found).imp fun _ => And.left) run

theorem Booked.itemIn (booked : S.Booked w) {p : Phase} {name item : Value}
    (run : (Loader.itemIn S.loader p name).run w = (.ok (some item), v)) : ∃ s label,
      name = .str s ∧ S.record? w (.text s) = some ⟨label, .phase p, item⟩ ∧ v = w :=
  itemIn_filed booked.stands (fun found => (booked.records found).imp fun _ => And.left) run

theorem does_withdraw {s : String} {label item : Value} {p : Phase}
    (found : S.record? w (.text s) = some ⟨label, .phase p, item⟩) (settled : p ≠ .loading) :
    S.filing.Does (Loader.remove S.loader (.str s)) w fun x _ => x = item := by
  refine does_fine fun booked => does_ok (run_remove booked.stands s) (fun booked => ?_) fun _ => ?_
  · have files := files_removed booked (s := s) fun t ⟨other, loading⟩ => by
      rw [found] at loading
      cases loading
      exact settled rfl
    exact ⟨files, booked.refiled files.refiles⟩
  · unfold Store.item?
    rw [show (w.heap.get S.store).records.get? (.text s) = _ from found]
    rfl

theorem does_release (name : Value) :
    S.filing.Does (Loader.loadPending S.loader name) w fun _ _ => True := by
  unfold Loader.loadPending
  refine does_fine fun booked => does_bind (does_quiet _) fun pending v keeps ⟨_, run⟩ => ?_
  cases pending with
  | true =>
    obtain ⟨s, label, item, rfl, found, rfl⟩ := booked.isIn run
    refine does_bind (does_withdraw found (by simp)) fun x u _ is => ?_
    subst is
    refine does_bind (does_spawn fun booked => ?_) fun f _ _ _ => does_pure fun _ => trivial
    exact filed_outside booked (outside_spawned booked.stands rfl) (evolves_spawned u _)
  | false =>
    refine does_bind (does_quiet _) fun m v _ _ => ?_
    refine does_bind (does_quiet _) fun known v _ _ => ?_
    cases known <;> exact does_bind (does_quiet _) fun _ _ _ _ => does_throw _

theorem filing_rewired (g : Waits) (booked : S.filing.fine w) : S.filing.keeps w (S.rewired w g) :=
  have booked : S.Booked w := booked
  filed_outside booked (outside_rewired booked.stands g) (evolves_rewired g w)

section

variable {L : S.Ledger} (rewired : ∀ {w : World} (g : Waits), L.fine w → L.keeps w (S.rewired w g))
include rewired

theorem does_rewire (f : Waits → Waits) : L.Does
    (update S.loader fun c => { c with waits := f c.waits }) w fun _ _ => True :=
  does_ok (run_update S.loader _ w) (rewired (f (w.heap.get S.loader).waits)) fun _ => trivial

theorem does_startWaiting (name deps : Value) :
    L.Does (Loader.startWaiting S.loader name deps) w fun _ _ => True := by
  unfold Loader.startWaiting
  refine does_bind (does_quiet _) fun k v _ _ => ?_
  refine does_bind (does_rewire rewired fun g => g.add k []) fun _ v _ _ => ?_
  refine does_bind (does_quiet _) fun xs v _ _ => ?_
  refine does_forM fun x _ v _ => does_bind (does_quiet _) fun j v _ _ => ?_
  exact does_rewire rewired fun g => g.add k [j]

theorem does_stopWaiting (name : Value) :
    L.Does (Loader.stopWaiting S.loader name) w fun _ _ => True := by
  unfold Loader.stopWaiting
  exact does_bind (does_quiet _) fun k v _ _ => does_rewire rewired fun g => g.remove k

end

theorem does_caching (module : Value) :
    S.filing.Does (Manager.cache S.manager module) w fun _ _ => True := by
  unfold Manager.cache
  split
  · next r =>
    refine does_look (fun _ => rfl) (does_ok (run_update S.manager _ w) (fun booked => ?_)
      fun _ => trivial)
    exact filed_outside booked (outside_cached booked.stands _ r) (evolves_cached w _ r)
  · exact does_look (fun _ => rfl) (does_throw _)

/-! ## What may be carried out -/

theorem grants {b : Activity} (running : S.Running w) (admitted : S.Uses a w b → S.Admitted w b)
    (held : Suspends w b → S.Held w) : (S.operating host).Grants a w b := fun uses =>
  ⟨⟨running, admitted uses, held⟩, fun _ _ _ _ carries => carries⟩

theorem grants_public {b : Activity} (running : S.Running w) (is : S.Public b)
    (held : Suspends w b → S.Held w) : (S.operating host).Grants a w b :=
  grants running (fun _ => .inl (.inl is)) held

theorem grants_invoke (running : S.Running w) (f : Value) (args : List Value) :
    (S.operating host).Grants a w (.invoke f args) :=
  grants running (fun uses => .inr (.inl ⟨f, args, .inl rfl, uses.permitted f args (.inl rfl)⟩))
    fun never => never.elim

theorem grants_await (running : S.Running w) (held : S.Held w) (x : Value) :
    (S.operating host).Grants a w (.awaitValue x) :=
  grants running (fun uses => .inr (.inr ⟨x, rfl, uses.awaits x rfl⟩)) fun _ => held

theorem grants_require (running : S.Running w) (n : Value) :
    (S.operating host).Grants a w (.require S.manager n) :=
  grants_public running rfl fun never => never.elim

theorem writes_slight (running : S.Running w) (slight : w.Slight v) :
    (S.operation host).move a w v ∧ (S.operation host).Fair w v ∧ S.Carries w v :=
  (outside_slight running.booked.stands slight).steps running

theorem handles_invoking {r : Routine α} (running : S.Running w)
    (within : r.Within (invoking World.Slight) w) : S.Handles host a r w :=
  goes_invoking running (fun carries slight _ => writes_slight (Carries.running carries) slight)
    (fun f args carries => grants_invoke (Carries.running carries) f args) within

theorem handles_consulting {r : Routine α} (running : S.Running w) (held : S.Held w)
    (within : r.Within (consulting World.Slight) w) : S.Handles host a r w :=
  goes_consulting running (fun carries slight _ => writes_slight (Carries.running carries) slight)
    (fun f args carries => grants_invoke (Carries.running carries) f args)
    (fun x carries => grants_await (Carries.running carries) (Carries.held carries held) x) within

theorem plain : (invoking World.Slight).Plain := plain_invoking fun tame => tame.toSlight

theorem roomy : (consulting World.Slight).Roomy := roomy_consulting fun tame => tame.toSlight

theorem handles_filing {e : Edit α} {f : α → Routine β} {Q : α → World → Prop}
    (running : S.Running w) (does : S.filing.Does e w Q)
    (next : ∀ x v, S.Carries w v → Q x v → S.Handles host a (f x) v) :
    S.Handles host a ((Routine.edit e).bind f) w :=
  goes_doing (fun _ => filed_steps does running)
    fun x v run _ carries => next x v carries (does.holds running.booked run)

theorem handles_first {x : Quiet α} {f : α → Routine β} (running : S.Running w)
    (next : ∀ y v, x.run w = (.ok y, v) → S.Carries w v → S.Handles host a (f y) v) :
    S.Handles host a (liftM x >>= f) w := goes_first running next

theorem handles_bind {r : Routine α} {f : α → Routine β} (first : S.Handles host a r w)
    (next : ∀ x v, S.Carries w v → S.Handles host a (f x) v) : S.Handles host a (r.bind f) w :=
  goes_bind first fun x v carries _ => next x v carries

/-! ## Linking and building -/

theorem handles_dependency (running : S.Running w) (dep : Value) :
    S.Handles host a (Linker.dependency (.obj .manager S.manager) dep) w := by
  unfold Linker.dependency
  refine handles_first running fun m v run carries => ?_
  cases run
  exact goes_granted (grants_require carries.running dep)

theorem handles_linker (running : S.Running w) (module : Value) :
    S.Handles host a (Linker.link (.obj .manager S.manager) module) w := by
  have each (deps : List Value) {v : World} (running : S.Running v) : S.Handles host a
      (deps.forM fun dep => do let _ ← Linker.dependency (.obj .manager S.manager) dep) v :=
    (goes_forM (J := fun _ => True) running trivial fun dep _ v carries _ =>
      (handles_bind (handles_dependency (Carries.running carries) dep) fun _ v carries =>
        goes_done carries.running trivial).mono fun o _ _ _ => by cases o <;> trivial).any
  unfold Linker.link
  split
  · next r =>
    refine handles_first running fun c v _ carries => ?_
    refine handles_first carries.running fun deps v _ carries => ?_
    have last {v : World} (running : S.Running v) : S.Handles host a (do
        Manager.cache (← asManager (.obj .manager S.manager)) (.obj .module r)
        debug "linker.linked" [("module", .str c.name), ("deps", (← Edit.read r).deps)]
        return .obj .module r : Routine Value) v := by
      refine handles_first running fun m v run carries => ?_
      cases run
      refine handles_filing carries.running (does_caching _) fun _ v carries _ => ?_
      refine handles_first carries.running fun _ v _ carries => ?_
      exact handles_first carries.running fun _ v _ carries => goes_done carries.running trivial
    split
    · refine handles_bind (goes_each carries.running fun dep _ v carries => ?_) fun codes v carries => ?_
      · exact handles_bind (handles_dependency (Carries.running carries) dep) fun x v carries =>
          goes_quiet carries.running fun _ _ _ _ => trivial
      refine handles_bind (goes_granted (grants carries.running (fun uses => .inr (.inl ⟨_, _, .inr rfl,
        uses.permitted _ _ (.inr rfl)⟩)) fun never => never.elim)) fun code v carries => ?_
      exact handles_first carries.running fun _ v _ carries => last carries.running
    · exact handles_bind (each deps carries.running) fun _ v carries => last carries.running
  · next d =>
    refine handles_first running fun c v _ carries => ?_
    have last {v : World} (running : S.Running v) : S.Handles host a (do
        (← items c.deps).forM fun dep => do
          let _ ← Linker.dependency (.obj .manager S.manager) dep
        Manager.cache (← asManager (.obj .manager S.manager)) (.obj .draft d)
        return .obj .draft d : Routine Value) v := by
      refine handles_first running fun deps v _ carries => ?_
      refine handles_bind (each deps carries.running) fun _ v carries => ?_
      refine handles_first carries.running fun m v run carries => ?_
      cases run
      exact handles_filing carries.running (does_caching _) fun _ v carries _ =>
        goes_done carries.running trivial
    split
    · exact last carries.running
    · exact handles_bind (goes_raise carries.running) fun _ v carries => last carries.running
  · exact goes_raise running

theorem handles_callWith {f : Value} {args : List Value} (running : S.Running w)
    (permitted : S.Permitted w f args)
    (bound : f.Bound → ∀ r : Routine Value, S.Handles host a r w) :
    S.Handles host a (Routine.callWith f ⟨args, []⟩) w :=
  goes_callWith running permitted bound
    (fun n _ carries => grants_require (Carries.running carries) n)
    (fun _ _ cannot => grants_public running trivial fun may => absurd may cannot)
    fun x _ _ => handles_linker running x

theorem handles_compile (running : S.Running w) (name : Value) :
    S.Handles host a (Loader.compile S.loader name) w := by
  unfold Loader.compile
  refine handles_first running fun loaded v run carries => ?_
  cases loaded with
  | true =>
    obtain ⟨s, label, item, rfl, found, rfl⟩ := running.booked.isIn run
    refine handles_filing running (does_withdraw found (by simp)) fun draft v carries _ => ?_
    refine handles_first carries.running fun loader v _ carries => ?_
    exact goes_granted (grants_public carries.running trivial fun never => never.elim)
  | false =>
    refine handles_first carries.running fun m v _ carries => ?_
    refine handles_first carries.running fun known v _ carries => ?_
    cases known <;>
      exact handles_first carries.running fun text v _ carries => goes_raise carries.running

theorem handles_link (running : S.Running w) (module : Value) :
    S.Handles host a (Loader.link S.loader module) w := by
  unfold Loader.link
  split
  · next r =>
    refine handles_first running fun c v _ carries => ?_
    refine handles_first carries.running fun m v _ carries => ?_
    refine handles_first carries.running fun pending v _ carries => ?_
    have last {v : World} (running : S.Running v) : S.Handles host a (do
        let linked ← Manager.link m (.obj .module r)
        Bus.emitOn (← Edit.read m).events (.str Event.link) (.linked (← nameOf linked))
        return linked : Routine Value) v := by
      refine handles_bind (handles_invoking running (Routine.within_managerLink plain m _ trivial))
        fun linked v carries => ?_
      refine handles_first carries.running fun manager v _ carries => ?_
      refine handles_first carries.running fun name v _ carries => ?_
      exact handles_bind (handles_invoking carries.running (Routine.within_emitOn plain.telling _ _ _
        (fun _ _ => World.Slight.announced _ _) trivial)) fun _ v carries =>
          goes_done carries.running trivial
    cases pending with
    | true =>
      exact handles_bind (handles_invoking carries.running
        (Routine.within_reportRegistration plain.telling m _ trivial)) fun _ v carries =>
          last carries.running
    | false => exact last carries.running
  · exact handles_first running fun text v _ carries => goes_raise carries.running

theorem handles_buildNow (running : S.Running w) (name : Value) :
    S.Handles host a (Loader.buildNow S.loader name) w :=
  handles_bind (handles_compile running name) fun module _ carries => handles_link carries.running module

theorem handles_managerRequire (running : S.Running w) (name : Value) :
    S.Handles host a (Manager.require S.manager name) w := by
  unfold Manager.require
  refine handles_first running fun found v _ carries => ?_
  cases found with
  | some module => exact goes_done carries.running trivial
  | none =>
    refine handles_first carries.running fun m v run later => ?_
    cases run
    rw [carries.running.booked.stands.serves]
    refine handles_first later.running fun loaded v _ carries => ?_
    cases loaded with
    | true => exact handles_buildNow carries.running name
    | false => exact handles_first carries.running fun text v _ carries => goes_raise carries.running

theorem handles_compileTwice (running : S.Running w) (name : Value) :
    S.Handles host a (Loader.compileTwice S.loader name) w := by
  unfold Loader.compileTwice
  refine handles_first running fun loaded v _ carries => ?_
  have again {v : World} (running : S.Running v) : S.Handles host a (do
      let module ← Loader.compile S.loader name
      unless ← Loader.isIn S.loader .loaded name do return some module
      debug "loader.reregistered" [("module", name)]
      return some (← Loader.compile S.loader name) : Routine (Option Value)) v := by
    refine handles_bind (handles_compile running name) fun module v carries => ?_
    refine handles_first carries.running fun loaded v _ carries => ?_
    cases loaded with
    | true =>
      refine handles_first carries.running fun _ v _ carries => ?_
      exact handles_bind (handles_compile carries.running name) fun _ v carries =>
        goes_done carries.running trivial
    | false => exact goes_done carries.running trivial
  cases loaded with
  | true => exact again carries.running
  | false => exact goes_done carries.running trivial

end AsyncImport.Site
