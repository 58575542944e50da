import AsyncImport.Proofs.Hosts

/-!
# Building modules

Compiling, linking and requiring never wait. A task that builds a module waits for the draft of its
name and for nothing else.
-/

namespace AsyncImport

namespace Site

open Edit Change Protocol

variable {S : Site} {u v w : World} {host : Host} {α β : Type} {a : Option Activity}

/-! ## Compiling -/

theorem isIn_true (tidy : S.Tidy w) {p : Phase} {name : Value}
    (run : (Loader.isIn S.loader p name).run w = (.ok true, v)) : ∃ s label item,
      name = .str s ∧ S.record? w (.text s) = some ⟨label, .phase p, item⟩ ∧ v = w :=
  isIn_filed tidy.stands (fun found => (tidy.records found).imp fun _ => And.left) run

theorem steady_removed {name : Value} {f : Value → Routine α} (orderly : S.Orderly w)
    (run : (Loader.isIn S.loader .loaded name).run w = (.ok true, v))
    (next : ∀ draft u, S.Keeps v u → S.Steady host a (f draft) u) :
    S.Steady host a ((Routine.edit (Loader.remove S.loader name)).bind f) v := by
  obtain ⟨s, label, item, rfl, found, rfl⟩ := isIn_true orderly.tidy run
  exact steady_doing orderly (does_remove found) fun draft u _ keeps _ => next draft u keeps

theorem steady_compile (orderly : S.Orderly w) (name : Value) :
    S.Steady host a (Loader.compile S.loader name) w := by
  unfold Loader.compile
  refine steady_first orderly fun loaded v still run keeps => ?_
  cases loaded with
  | true =>
    refine steady_removed orderly run fun draft u later => ?_
    refine steady_first later.orderly fun loader u _ _ keeps => ?_
    exact steady_perform keeps.orderly fun _ => trivial
  | false =>
    refine steady_first keeps.orderly fun m v _ _ keeps => ?_
    refine steady_first keeps.orderly fun known v _ _ keeps => ?_
    cases known <;>
      exact steady_first keeps.orderly fun text v _ _ keeps => steady_raise keeps.orderly _

theorem steady_link (orderly : S.Orderly w) (module : Value) :
    S.Steady host a (Loader.link S.loader module) w := by
  unfold Loader.link
  split
  · next r =>
    refine steady_first orderly fun c v _ _ keeps => ?_
    refine steady_first keeps.orderly fun m v _ _ keeps => ?_
    refine steady_first keeps.orderly fun pending v _ _ keeps => ?_
    have last {v : World} (orderly : S.Orderly v) : S.Steady host a (do
        let linked ← Manager.link m (.obj .module r)
        Bus.emitOn (← Edit.read m).events (.str Event.link) (.linked (← nameOf linked))
        return linked : Routine Value) v := by
      refine steady_bind (steady_plainly orderly (Routine.within_managerLink plain_plainly m _ trivial))
        fun linked v keeps => ?_
      refine steady_first keeps.orderly fun manager v _ _ keeps => ?_
      refine steady_first keeps.orderly fun name v _ _ keeps => ?_
      exact steady_bind (steady_plainly keeps.orderly (Routine.within_emitOn plain_plainly.telling _ _ _
        (fun _ _ => (World.Slight.announced _ _).loose) trivial))
        fun _ v keeps => steady_done keeps.orderly _
    cases pending with
    | true =>
      exact steady_bind (steady_plainly keeps.orderly
        (Routine.within_reportRegistration plain_plainly.telling m _ trivial)) fun _ v keeps =>
          last keeps.orderly
    | false => exact last keeps.orderly
  · exact steady_first orderly fun text v _ _ keeps => steady_raise keeps.orderly _

theorem steady_buildNow (orderly : S.Orderly w) (name : Value) :
    S.Steady host a (Loader.buildNow S.loader name) w :=
  steady_bind (steady_compile orderly name) fun module _ keeps => steady_link keeps.orderly module

theorem steady_managerRequire (orderly : S.Orderly w) (name : Value) :
    S.Steady host a (Manager.require S.manager name) w := by
  unfold Manager.require
  refine steady_first orderly fun found v _ _ keeps => ?_
  cases found with
  | some module => exact steady_done keeps.orderly _
  | none =>
    refine steady_first keeps.orderly fun m v still run later => ?_
    cases run
    rw [keeps.stands.serves]
    refine steady_first later.orderly fun loaded v _ _ keeps => ?_
    cases loaded with
    | true => exact steady_buildNow keeps.orderly name
    | false => exact steady_first keeps.orderly fun text v _ _ keeps => steady_raise keeps.orderly _

theorem steady_compileTwice (orderly : S.Orderly w) (name : Value) :
    S.Steady host a (Loader.compileTwice S.loader name) w := by
  unfold Loader.compileTwice
  refine steady_first orderly fun loaded v _ _ keeps => ?_
  have again {v : World} (orderly : S.Orderly v) : S.Steady host a (do
      let module ← Loader.compile S.loader name
      unless ← Loader.isIn S.loader .loaded name do return some module
      debug "loader.reregistered" [("module", name)]
      return some (← Loader.compile S.loader name) : Routine (Option Value)) v := by
    refine steady_bind (steady_compile orderly name) fun module v keeps => ?_
    refine steady_first keeps.orderly fun loaded v _ _ keeps => ?_
    cases loaded with
    | true =>
      refine steady_first keeps.orderly fun _ v _ _ keeps => ?_
      exact steady_bind (steady_compile keeps.orderly name) fun _ v keeps =>
        steady_done keeps.orderly _
    | false => exact steady_done keeps.orderly _
  cases loaded with
  | true => exact again keeps.orderly
  | false => exact steady_done keeps.orderly _

/-! ## Building -/

section

variable {t : Ref .future} {s : String} (own : w.current = some t) (builds : S.Builds w t s)
include own builds

theorem steady_draft {f : Ref .future} (orderly : S.Orderly w) (live : w.heap.Live f)
    (is : (w.heap.get f).status = .waiting → (∃ x, S.Settles w f s x) ∨ S.Loads w f s) :
    S.Steady host a (Routine.result f) w := by
  have foreign {b : Activity} (activity : (w.heap.get t).activity? = some b) :
      b = .buildReported S.loader (.str s) ∨ ∃ x, b = .buildFetched S.loader (.str s) x := by
    rcases builds with known | ⟨x, known⟩ <;> rw [known] at activity <;> cases activity
    · exact .inl rfl
    · exact .inr ⟨x, rfl⟩
  refine safe_await orderly (fun _ u same runs waiting other => ?_) fun o v keeps _ => ?_
  · obtain rfl := Option.some.inj (own.symm.trans same)
    refine orderly.tidy.awaiting own runs live waiting other (fun settles => ?_) (fun owns _ => ?_)
      (.draft builds (is waiting))
    · obtain ⟨_, _, activity⟩ := settles
      rcases foreign activity with is | ⟨_, is⟩ <;> cases is
    · rcases owns.activity with ⟨_, _, _, activity⟩ | ⟨_, activity, _⟩ <;>
        rcases foreign activity with is | ⟨_, is⟩ <;> cases is
  · cases o <;> exact keeps

theorem steady_build (orderly : S.Orderly w) :
    S.Steady host a (Loader.build S.loader (.str s)) w := by
  unfold Loader.build
  refine steady_first orderly fun m v still run keeps => ?_
  rw [run_managerOf orderly.tidy.stands] at run
  cases run
  refine steady_first keeps.orderly fun found v _ run keeps => ?_
  rw [run_find] at run
  cases run
  split
  · exact steady_done keeps.orderly _
  refine steady_first orderly fun item v _ run keeps => ?_
  rw [run_itemIn orderly.tidy.stands] at run
  cases run
  split
  · next known =>
    obtain ⟨label, found⟩ := get?_eq_some.mp known
    obtain ⟨f, work, rfl, task, settles⟩ := orderly.tidy.inFlight found
    refine steady_bind (steady_draft own builds orderly (World.task?_live task)
      fun _ => .inl ⟨work, settles⟩) fun _ v keeps => ?_
    exact steady_perform keeps.orderly fun _ =>
      ⟨rfl, s, t, rfl, keeps.current.trans own, builds.mono keeps.evolves⟩
  refine steady_bind (steady_compileTwice orderly _) fun compiled v keeps => ?_
  refine steady_first keeps.orderly fun pending u _ run later => ?_
  cases pending with
  | true =>
    -- a pending registration is taken up, whether or not anything has been compiled
    have start {x : World} (keeps : S.Keeps w x) : S.Steady host a (do
        let registration ← Loader.startPending S.loader (.str s)
        let draft ← Routine.awaitValue registration
        Loader.link S.loader (.obj .module (← Module.ofDraft (← asDraft draft))) : Routine Value) x := by
      refine steady_doing keeps.orderly (does_takeUp s) fun registration y _ later is => ?_
      obtain ⟨f, _, rfl, loads, -⟩ := is
      have keeps := keeps.trans later
      refine steady_bind (steady_draft (keeps.current.trans own) (builds.mono keeps.evolves)
        keeps.orderly loads.live fun _ => .inr loads) fun _ _ keeps => ?_
      refine steady_first keeps.orderly fun d y _ _ keeps => ?_
      exact steady_first keeps.orderly fun r y _ _ keeps => steady_link keeps.orderly _
    have keeps := keeps.trans later
    cases compiled with
    | some module =>
      refine steady_bind (steady_plainly keeps.orderly
        (Routine.within_reportRegistration plain_plainly.telling _ _ trivial)) fun _ y later => ?_
      exact start (keeps.trans later)
    | none => exact start keeps
  | false =>
    cases compiled with
    | some module => exact steady_link later.orderly module
    | none => exact steady_first later.orderly fun text v _ _ keeps => steady_raise keeps.orderly _

end

/-! ## Importing -/

def Requested (S : Site) (x : Value) (w : World) : Prop :=
  ∃ f, x = .obj .future f ∧ w.heap.Live f ∧
    ((w.heap.get f).status = .waiting → ∃ s, S.Builds w f s)

theorem Requested.evolves {x : Value} (requested : S.Requested x w) (evolves : w.Evolves v) :
    S.Requested x v := by
  obtain ⟨f, is, live, builds⟩ := requested
  exact ⟨f, is, evolves.live live, fun waiting =>
    (builds (undone_of_mono evolves live waiting)).imp fun _ builds => builds.mono evolves⟩

theorem does_request (name : Value) :
    S.Does (Loader.load S.loader name .none) w fun x v => S.Requested x v :=
  (does_load name .none).mono fun _ _ _ ⟨s, f, _, is, live, builds⟩ =>
    ⟨f, is, live, fun waiting => ⟨s, builds.resolve_left fun done => done waiting⟩⟩

theorem steady_requested {x : Value} (orderly : S.Orderly w) (anchored : S.Anchored w)
    (requested : S.Requested x w) : S.Steady host a (Routine.awaitValue x) w := by
  obtain ⟨f, rfl, live, builds⟩ := requested
  exact steady_result orderly anchored fun _ => ⟨live, fun _ _ waiting => .inl (builds waiting)⟩

theorem steady_importModule (orderly : S.Orderly w) (anchored : S.Anchored w) (name : Value) :
    S.Steady host a (Manager.importModule S.manager name) w := by
  unfold Manager.importModule
  refine steady_first orderly fun m v _ run keeps => ?_
  cases run
  rw [keeps.stands.serves]
  refine steady_doing orderly (does_request name) fun x v _ keeps requested => ?_
  exact steady_requested keeps.orderly (keeps.anchored anchored) requested

theorem gathered {xs : List Value} {g : Ref .future} {v : World}
    (requests : ∀ x ∈ xs, S.Requested x w) (evolves : w.Evolves v) (live : v.heap.Live g)
    (members : (v.heap.get g).status = .waiting → ∃ members, (v.heap.get g).members? = some members ∧
      ∀ f ∈ members, .obj .future f ∈ xs) (waiting : (v.heap.get g).status = .waiting) :
    S.Building v g := by
  obtain ⟨fs, is, each⟩ := members waiting
  refine .inr ⟨live, fs, is, fun f mem => ?_⟩
  obtain ⟨h, same, lives, builds⟩ := (requests _ (each f mem)).evolves evolves
  cases same
  exact ⟨lives, builds⟩

theorem steady_importNames (orderly : S.Orderly w) (anchored : S.Anchored w) (names : Value) :
    S.Steady host a (Manager.importNames S.manager names) w := by
  unfold Manager.importNames
  refine steady_first orderly fun m v _ run keeps => ?_
  cases run
  rw [keeps.stands.serves]
  split
  · refine steady_doing orderly (does_request _) fun x v _ keeps requested => ?_
    refine steady_bind (steady_requested keeps.orderly (keeps.anchored anchored) requested)
      fun module v keeps => steady_quiet keeps.orderly _
  refine steady_first orderly fun items v _ _ keeps => ?_
  refine safe_bind (safe_collect keeps.orderly (fun n _ u _ => does_request (S := S) (w := u) n)
    fun requested moved => requested.evolves moved.evolves) (fun loads u ⟨moved, all⟩ => ?_)
      fun e u ⟨moved, _⟩ => moved.keeps keeps.orderly
  have anchored := keeps.anchored anchored
  have keeps := moved.keeps keeps.orderly
  have requests (x : Value) (mem : x ∈ loads) : S.Requested x u := by
    obtain ⟨n, _, requested⟩ := exists_left (all loads rfl) mem
    exact requested
  refine (steady_doing keeps.orderly (does_group fun x mem => ?_) fun g y _ later group => ?_).after keeps
  · obtain ⟨f, is, live, _⟩ := requests x mem
    exact ⟨f, is, live⟩
  obtain ⟨live, -, -, members⟩ := group
  refine steady_bind (steady_result later.orderly (later.anchored (keeps.anchored anchored)) fun _ =>
    ⟨live, fun _ _ => gathered requests later.evolves live members⟩) fun modules y keeps => ?_
  refine steady_first keeps.orderly fun ms y _ _ keeps => ?_
  refine steady_bind (steady_mapM keeps.orderly fun x _ y keeps => steady_quiet keeps.orderly _)
    fun codes y keeps => steady_quiet keeps.orderly _

end Site
end AsyncImport
