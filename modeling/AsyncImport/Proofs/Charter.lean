import AsyncImport.Proofs.Backing
import AsyncImport.Proofs.Handover
import AsyncImport.Proofs.Waiting

/-!
# Keeping to a plan

What is expected of a host that gives every name the same dependencies each time, and the protocol by
which the state of the loader goes by the plan. It is proved on top of the protocol of the site, so
that every request finds the loader's state in order.
-/

namespace AsyncImport

open Edit Protocol

def World.Lists (g : Plan) (w : World) (d : Ref .draft) : Prop :=
  ∀ s, (w.heap.get d).name = .str s →
    if w.heap.truthy (w.heap.get d).deps then
      w.heap.items? (w.heap.get d).deps = some ((g s).map .str)
    else g s = []

def Linking : Option Activity → Prop
  | some (.build _ _) | some (.buildReported _ _) | some (.buildFetched _ _ _)
  | some (.buildNow _ _) | some (.link _ _) | some (.require _ _) => True
  | _ => False

theorem linking_of_links {a : Option Activity} (is : links a = true) : Linking a := by
  rcases a with - | b
  · cases is
  · cases b <;> trivial

namespace Site

variable (S : Site) (g : Plan)

def Vetted (w : World) (x : Value) : Prop :=
  ∀ r, x = .obj .module r → w.heap.Live r ∧ g.Grounded (w.heap.get r).name

/-- What a host may ask of a loader at once: it requests names on its own behalf, and registers them
with the dependencies of the plan. -/
inductive Requests (w : World) : World → Prop
  | load (name : Value) : Requests w ((Loader.load S.loader name .none).after w).2
  | fetch (name : Value) : Requests w ((Loader.fetch S.loader name .none).after w).2
  | register (name deps factory : Value)
      (listed : ∀ s, name = .str s → w.heap.sequence? deps = some ((g s).map .str)) :
      Requests w ((Loader.register S.loader name deps factory).after w).2
  | declare (name deps factory : Value)
      (listed : ∀ s, name = .str s → if factory = .none ∧ deps.callable then g s = []
        else w.heap.sequence? deps = some ((g s).map .str)) :
      Requests w ((Manager.register S.manager name deps factory).after w).2
  | start {c : Ref .coroutine} (live : w.heap.Live c) (is : S.Open (w.heap.get c).activity) :
      Requests w ((asFuture (.obj .coroutine c)).after w).2

/-- What is expected of a host that gives every name the dependencies of the plan and keeps names.
Modules are linked by the loader alone; it is given none to link of a name that is not grounded. -/
def charting : Conduct where
  writes a w v := S.conduct.writes a w v ∧ (Hosted a → w.Mute v ∨ S.Requests g w v) ∧
    ∀ l d, a = some (.loadDependencies l (.obj .draft d)) → w.Lists g d
  calls a w b := S.Calls a w b ∧ (∀ args, b = .invoke (.library .linkModule) args → Linking a) ∧
    (∀ codes, b ≠ .produce (.library .linkModule) codes) ∧ ∀ l x, b = .link l x → Vetted g w x
  pauses := S.conduct.pauses
  awaits := S.conduct.awaits
  ends a w o :=
    (∀ l d x, a = some (.loadDependencies l (.obj .draft d)) → o = .ok x → w.Lists g d) ∧
    (∀ l s p d, a = some (.fetchDraft l (.str s) p) → o = .ok (.obj .draft d) →
      (w.heap.get d).name = .str s) ∧
    ∀ m d r, a = some (.compileStage m (.obj .draft d)) → o = .ok (.obj .module r) →
      w.heap.Live r ∧ (w.heap.get d).name = .str (w.heap.get r).name

theorem charting_meets : (S.charting g).Meets S.conduct where
  writes expected := expected.1
  calls expected := expected.1
  pauses := id
  awaits := id
  ends _ := trivial

def Ready (w : World) : Activity → Prop
  | .host _ _ | .transformStage _ _ | .compileStage _ _ => True
  | .invoke f args => S.Permitted w f args ∧
    (f = .library .linkModule → ∀ m x, args = [m, x] → Vetted g w x)
  | .produce f args => S.Permitted w f args ∧ f ≠ .library .linkModule
  | .awaitValue (.obj .coroutine c) => w.heap.Live c
  | .awaitValue _ => True
  | .dependencyStage m _ => m = .obj .manager S.manager
  | .loadDependencies l draft =>
    l = S.loader ∧ ∃ d s, draft = .obj .draft d ∧ (w.heap.get d).name = .str s
  | .fetchDraft l name _ => l = S.loader ∧ ∃ s, name = .str s
  | .settle l name work _ _ => l = S.loader ∧ ∃ s, name = .str s ∧ S.Work w s work
  | .build l name | .buildReported l name => l = S.loader ∧ ∃ s, name = .str s
  | .buildFetched l name fetching => l = S.loader ∧ ∃ s f, name = .str s ∧ fetching = .obj .future f
  | .importNames m _ | .importModule m _ | .require m _ => m = S.manager
  | .buildNow l _ => l = S.loader
  | .link l x => l = S.loader ∧ Vetted g w x
  | _ => False

def charter (host : Host) : Protocol where
  body := host.meaning
  conduct := (S.protocol host).backed (S.charting g)
  ground := S.Tidy
  inv := S.Charted g
  rely _ _ _ := True
  born _ _ := True
  pre _ a w := S.Charted g w ∧ S.Ready g w a
  post a _ o v := S.Charted g v ∧ ∀ x, o = .ok x → Result g v a x
  move _ _ v := S.Charted g v

variable {S g} {u v w : World} {host : Host} {α β : Type} {a : Option Activity}

theorem fair_backed (fair : (S.protocol host).Fair w v) : (S.charter g host).Fair w v where
  evolves := fair.evolves
  current := fair.current
  spares := fair.spares
  rely _ _ _ := trivial
  born t none task := ⟨trivial, (fair.born t none task).2⟩

theorem ready_of_fit {b : Activity} (fit : S.Fit w b)
    (makes : ∀ codes, b ≠ .produce (.library .linkModule) codes)
    (links : ∀ m x, b = .invoke (.library .linkModule) [m, x] → Vetted g w x)
    (given : ∀ l x, b = .link l x → Vetted g w x) : S.Ready g w b := by
  cases b with
  | invoke f args => exact ⟨fit, fun is m x both => links m x (by rw [is, both])⟩
  | produce f args => exact ⟨fit, fun is => makes args (by rw [is])⟩
  | awaitValue v =>
    by_cases is : ∃ c, v = .obj .coroutine c
    · obtain ⟨c, rfl⟩ := is
      exact fit.2.1
    · unfold Ready
      split <;> simp_all
  | loadDependencies l d =>
    obtain ⟨rfl, s, d, -, rfl, named⟩ := fit
    exact ⟨rfl, d, s, rfl, named⟩
  | fetchDraft l n p =>
    obtain ⟨rfl, -, s, rfl, -⟩ := fit
    exact ⟨rfl, s, rfl⟩
  | build l n =>
    obtain ⟨rfl, s, t, rfl, -⟩ := fit
    exact ⟨rfl, s, rfl⟩
  | dependencyStage m d => exact fit.2.1
  | importNames m x | importModule m x => exact fit.1
  | require | buildNow => exact fit
  | link l x => exact ⟨fit, given l x rfl⟩
  | host | transformStage | compileStage => trivial
  | _ => exact fit.elim

/-! ## Routines that keep to a plan -/

def Plots (S : Site) (g : Plan) (host : Host) (a : Option Activity) (r : Routine α)
    (Q : α → World → Prop) (w : World) : Prop :=
  (S.charter g host).Safe a
    (fun o v => S.Charted g v ∧ w.Evolves v ∧ ∀ x, o = .ok x → Q x v) r w

theorem Plots.after {r : Routine α} {Q : α → World → Prop} (plots : S.Plots g host a r Q v)
    (evolves : w.Evolves v) : (S.charter g host).Safe a
      (fun o u => S.Charted g u ∧ w.Evolves u ∧ ∀ x, o = .ok x → Q x u) r v :=
  Safe.mono plots fun _ _ ⟨charted, later, holds⟩ => ⟨charted, evolves.trans later, holds⟩

theorem Plots.mono {r : Routine α} {Q R : α → World → Prop} (plots : S.Plots g host a r Q w)
    (weaker : ∀ x v, S.Charted g v → w.Evolves v → Q x v → R x v) : S.Plots g host a r R w :=
  Safe.mono plots fun _ v ⟨charted, evolves, holds⟩ =>
    ⟨charted, evolves, fun x is => weaker x v charted evolves (holds x is)⟩

theorem plots_done {Q : α → World → Prop} {x : α} (charted : S.Charted g w) (holds : Q x w) :
    S.Plots g host a (.done x) Q w :=
  ⟨charted, .refl w, fun y same => by cases same; exact holds⟩

theorem plots_fail {Q : α → World → Prop} (charted : S.Charted g w) (e : Ref .failure) :
    S.Plots g host a (.fail e) Q w := ⟨charted, .refl w, by simp⟩

theorem plots_andThen {r : Routine α} {f : α → Routine β} {h : Ref .failure → Routine β}
    {R : α → World → Prop} {Q : β → World → Prop} (first : S.Plots g host a r R w)
    (value : ∀ x v, S.Charted g v → w.Evolves v → R x v → S.Plots g host a (f x) Q v)
    (fault : ∀ e v, S.Charted g v → w.Evolves v → S.Plots g host a (h e) Q v) :
    S.Plots g host a (r.andThen f h) Q w :=
  safe_andThen
    (fun x v ⟨charted, evolves, holds⟩ => (value x v charted evolves (holds x rfl)).after evolves)
    (fun e v ⟨charted, evolves, _⟩ => (fault e v charted evolves).after evolves) first

theorem plots_bind {r : Routine α} {f : α → Routine β} {R : α → World → Prop}
    {Q : β → World → Prop} (first : S.Plots g host a r R w)
    (next : ∀ x v, S.Charted g v → w.Evolves v → R x v → S.Plots g host a (f x) Q v) :
    S.Plots g host a (r.bind f) Q w := by
  rw [← Routine.andThen_fail]
  exact plots_andThen first next fun e v charted _ => plots_fail charted e

theorem plots_doing {e : Edit α} {f : α → Routine β} {Q : β → World → Prop}
    (charted : S.Charted g w)
    (draws : (S.charting g).writes a w (e.after w).2 → S.Orderly w → S.Draws g e w)
    (next : ∀ x v, e w = (.ok x, v) → (S.charting g).writes a w v → S.Orderly w → S.Orderly v →
      S.Charted g v → w.Evolves v → S.Plots g host a (f x) Q v) :
    S.Plots g host a ((Routine.edit e).bind f) Q w := by
  refine safe_bind (Q := fun o v => S.Charted g v ∧ w.Evolves v ∧ (S.charting g).writes a w v ∧
    S.Orderly w ∧ S.Orderly v ∧ (o, v) = e.after w) (safe_edit ?_) ?_ fun e v holds =>
      ⟨holds.1, holds.2.1, by simp⟩
  · rintro ⟨expected, ⟨orderly, orderly'⟩, fair⟩
    have charted' := (draws expected orderly).after charted
    exact ⟨charted', fair_backed fair, charted', fair.evolves, expected, orderly, orderly', rfl⟩
  · rintro x v ⟨charted', evolves, expected, orderly, orderly', is⟩
    refine (next x v ?_ expected orderly orderly' charted' evolves).after evolves
    unfold Edit.after at is
    rcases run : e w with ⟨f | y, u⟩ <;> rw [run] at is
    · cases is
    · cases is
      rfl

theorem plots_first {x : Quiet α} {f : α → Routine β} {Q : β → World → Prop}
    (charted : S.Charted g w)
    (next : ∀ y v, x.run w = (.ok y, v) → S.Charted g v → w.Evolves v → S.Plots g host a (f y) Q v) :
    S.Plots g host a (liftM x >>= f) Q w :=
  plots_doing charted (fun _ _ => draws_quiet x w) fun y v run _ _ _ charted evolves =>
    next y v run charted evolves

theorem plots_edit {e : Edit α} {Q : α → World → Prop} (charted : S.Charted g w)
    (draws : (S.charting g).writes a w (e.after w).2 → S.Orderly w → S.Draws g e w)
    (holds : ∀ x v, e w = (.ok x, v) → S.Orderly w → S.Charted g v → w.Evolves v → Q x v) :
    S.Plots g host a (Routine.edit e) Q w := by
  rw [← Routine.bind_done (Routine.edit e)]
  exact plots_doing charted draws fun x v run _ orderly _ charted evolves =>
    plots_done charted (holds x v run orderly charted evolves)

theorem plots_quiet {x : Quiet α} {Q : α → World → Prop} (charted : S.Charted g w)
    (holds : ∀ y v, x.run w = (.ok y, v) → S.Charted g v → w.Evolves v → Q y v) :
    S.Plots g host a (liftM x : Routine α) Q w :=
  plots_edit charted (fun _ _ => draws_quiet x w) fun y v run _ => holds y v run

theorem plots_raise {Q : α → World → Prop} (charted : S.Charted g w) (f : Refusal) :
    S.Plots g host a (Routine.raise f : Routine α) Q w :=
  plots_edit charted (fun _ _ => draws_throw f.straight w) fun x v run => by
    rw [run_throw] at run
    cases run

theorem plots_perform {b : Activity} (charted : S.Charted g w)
    (links : (S.charting g).calls a w b → ∀ m x, b = .invoke (.library .linkModule) [m, x] →
      Vetted g w x) :
    S.Plots g host a (Routine.perform b) (fun x v => Result g v b x) w := by
  rintro ⟨expected, -, fit⟩
  refine ⟨⟨charted, ready_of_fit fit expected.2.2.1 (links expected) expected.2.2.2⟩,
    fun o v evolves _ ⟨charted, result⟩ => ?_⟩
  cases o with
  | ok x =>
    refine ⟨charted, evolves, fun y same => ?_⟩
    cases same
    exact result x rfl
  | error e => exact ⟨charted, evolves, by simp⟩

/-! ## Waiting -/

theorem charted_failure (charted : S.Charted g w) {f : Fault} (straight : f.isCircular = false) :
    S.Charted g (w.alloc .failure f) :=
  charted.sketch (sketches_failure charted.stands (fine_of_straight straight))

theorem charted_woken {t f : Ref .future} {o : Outcome} (charted : S.Charted g u)
    (task : u.task? t ≠ none) (calm : ¬ u.Flagged t) (wakes : Wakes t u o v) :
    S.Charted g v ∧ u.Evolves v ∧
      ((u.heap.get t).waitsFor? = some f → ∀ x, o = .ok x → (v.heap.get f).status = .done x) := by
  have resumed {y : World} (jobs : List Job) (charted : S.Charted g y) (task : y.task? t ≠ none) :=
    charted.sketch (sketches_resumed jobs task)
  cases wakes with
  | @step jobs ready free =>
    exact ⟨resumed jobs charted task, (World.turns_resumed u t _).evolves,
      fun waits => by simp [free] at waits⟩
  | @react jobs h _ y ready waits yields =>
    have last (y : World) : y.Evolves (y.resumed t jobs) := (World.turns_resumed y t jobs).evolves
    cases yields with
    | @done x status =>
      refine ⟨resumed jobs charted task, last u, fun for_ y is => ?_⟩
      obtain rfl := Option.some.inj (waits.symm.trans for_)
      cases is
      rw [((World.passes_resumed u t jobs).follows h).status (by simp [status]), status]
    | failed status => exact ⟨resumed jobs charted task, last u, fun _ y is => by cases is⟩
    | cancelled status =>
      have kept : (u.alloc .failure .cancelled).task? t = u.task? t :=
        World.Spares.task? (.ofGet (World.get_alloc_kind _ (by decide)))
      exact ⟨resumed jobs (charted_failure charted rfl) (kept ▸ task),
        (World.still_failure u _).evolves.trans (last _), fun _ y is => by cases is⟩
  | cancelled _ flagged => exact absurd flagged calm

theorem safe_awaiting {f : Ref .future} {k : Outcome → Routine α}
    {Q : Except (Ref .failure) α → World → Prop} (charted : S.Charted g w)
    (next : ∀ o v, S.Charted g v → w.Evolves v →
      (∀ x, o = .ok x → (v.heap.get f).status = .done x) → (S.charter g host).Safe a Q (k o) v) :
    (S.charter g host).Safe a Q (.await f k) w := by
  rintro ⟨-, runs⟩
  refine ⟨fun o v yields => ?_, fun waiting => ?_⟩
  · cases yields with
    | done status => exact next _ _ charted (.refl w) fun x is => by cases is; exact status
    | failed status => exact next _ _ charted (.refl w) (by simp)
    | cancelled status =>
      exact next _ _ (charted_failure charted rfl) (World.still_failure w _).evolves (by simp)
  have failed := next (.error (w.heap.fresh .failure)) _
    (charted_failure charted (f := .plain .runtime) rfl) (World.still_failure w _).evolves (by simp)
  cases own : w.current with
  | none => exact failed
  | some t =>
    refine ⟨fun _ => failed, fun other => ?_⟩
    have runs := runs t own
    have turns := World.turns_awaiting waiting runs other
    refine ⟨charted.sketch (sketches_awaiting waiting runs other),
      fun u o v later tidy charted _ wakes => ?_⟩
    obtain ⟨b, task⟩ := Option.ne_none_iff_exists'.mp runs.task?
    have aside : (w.awaiting t f).task? t ≠ none := by
      simp [turns.evolves.task?_some task (World.status_awaiting waiting runs other)]
    have spares : World.Spares t (w.awaiting t f) u := later.spares
    have task : u.task? t ≠ none := by rwa [spares.task?]
    obtain ⟨charted, evolves, done⟩ :=
      charted_woken (f := f) charted task (Machine.Calm.not_flagged tidy.calm task) wakes
    refine next o v charted ((turns.evolves.trans later.evolves).trans evolves) (done ?_)
    rw [spares.waitsFor?]
    exact World.waitsFor?_awaiting waiting runs other

theorem safe_pausing {k : Outcome → Routine α} {Q : Except (Ref .failure) α → World → Prop}
    (charted : S.Charted g w)
    (next : ∀ o v, S.Charted g v → w.Evolves v → (S.charter g host).Safe a Q (k o) v) :
    (S.charter g host).Safe a Q (.pause k) w := by
  rintro ⟨-, runs⟩
  cases own : w.current with
  | none =>
    exact next _ _ (charted_failure charted (f := .plain .runtime) rfl)
      (World.still_failure w _).evolves
  | some t =>
    refine ⟨charted.sketch (sketches_paused w t), fun u o v later tidy charted _ wakes => ?_⟩
    have turns := World.turns_paused w t
    have aside : (w.paused t).task? t ≠ none := World.Runs.task? (runs t own)
    have spares : World.Spares t (w.paused t) u := later.spares
    have task : u.task? t ≠ none := by rwa [spares.task?]
    obtain ⟨charted, evolves, -⟩ :=
      charted_woken (f := t) charted task (Machine.Calm.not_flagged tidy.calm task) wakes
    exact next o v charted ((turns.evolves.trans later.evolves).trans evolves)

theorem plots_result {f : Ref .future} (charted : S.Charted g w) :
    S.Plots g host a (Routine.result f) (fun x v => (v.heap.get f).status = .done x) w := by
  refine safe_awaiting charted fun o v charted evolves done => ?_
  cases o with
  | ok x => exact ⟨charted, evolves, fun y is => by cases is; exact done x rfl⟩
  | error e => exact ⟨charted, evolves, by simp⟩

/-! ## The host's code, and code that calls it -/

theorem Requests.draws (requests : S.Requests g w v) (charted : S.Charted g w) : S.Charted g v := by
  cases requests with
  | load name => exact (draws_load name w).after charted
  | fetch name => exact (draws_fetch (.inl rfl)).after charted
  | register name deps factory listed => exact (draws_register listed).after charted
  | declare name deps factory listed => exact (draws_declare listed).after charted
  | start => exact (draws_asFuture _ w).after charted

theorem plots_hosted (hosted : Hosted a) (r : Routine α) (charted : S.Charted g w) :
    S.Plots g host a r (fun _ _ => True) w := by
  have unlinking : ¬ Linking a := by
    rintro linking
    rcases a with _ | b
    · exact linking
    · cases b <;> first | exact linking | exact hosted
  induction r generalizing w with
  | done x => exact plots_done charted trivial
  | fail e => exact plots_fail charted e
  | read k ih => exact ih _ charted
  | write v k ih =>
    rintro ⟨⟨-, given, -⟩, -, fair⟩
    have charted : S.Charted g v := by
      rcases given hosted with mute | requests
      · exact charted.sketch (sketches_mute charted.stands mute)
      · exact requests.draws charted
    exact ⟨charted, fair_backed fair, (ih charted).after fair.evolves⟩
  | call b k ih =>
    rintro ⟨⟨-, links, makes, given⟩, -, fit⟩
    refine ⟨⟨charted, ready_of_fit fit makes (fun _ _ is => absurd (links _ is) unlinking) given⟩, ?_⟩
    exact fun o v evolves _ ⟨charted, _⟩ => (ih o charted).after evolves
  | pause k ih => exact safe_pausing charted fun o v charted evolves => (ih o charted).after evolves
  | await f k ih =>
    exact safe_awaiting charted fun o v charted evolves _ => (ih o charted).after evolves

def outward (a : Option Activity) : Bounds :=
  ⟨World.Slight, fun b => (∃ f args, b = .invoke f args ∧ (Linking a → Brief args)) ∨
    ∃ v, b = .awaitValue v, fun _ => True⟩

theorem telling_outward (a : Option Activity) : (outward a).Telling :=
  ⟨(·.toSlight), fun f args brief => .inl ⟨f, args, rfl, fun _ => brief⟩⟩

theorem roomy_outward (unlinking : ¬ Linking a) : (outward a).Roomy :=
  ⟨⟨(·.toSlight), fun f args => .inl ⟨f, args, rfl, fun links => absurd links unlinking⟩⟩,
    fun v => .inr ⟨v, rfl⟩⟩

theorem plots_outward {r : Routine α} (charted : S.Charted g w) (within : r.Within (outward a) w) :
    S.Plots g host a r (fun _ _ => True) w := by
  induction r generalizing w with
  | done x => exact plots_done charted trivial
  | fail e => exact plots_fail charted e
  | read k ih => exact ih _ charted within
  | write v k ih =>
    rintro ⟨⟨⟨names, -⟩, -⟩, -, fair⟩
    have mute : w.Mute v := World.Slight.mute within.1 names
    have charted := charted.sketch (sketches_mute charted.stands mute)
    exact ⟨charted, fair_backed fair, (ih charted (within.2 trivial)).after fair.evolves⟩
  | call b k ih =>
    rintro ⟨⟨-, links, makes, given⟩, -, fit⟩
    refine ⟨⟨charted, ready_of_fit fit makes (fun m x is r same => ?_) given⟩,
      fun o v evolves _ ⟨charted, _⟩ => (ih o charted (within.2 o v trivial)).after evolves⟩
    subst is same
    obtain rfl : m = .obj .manager S.manager := Option.some.inj fit
    rcases within.1 with ⟨f, xs, same, brief⟩ | ⟨x, same⟩
    · cases same
      exact absurd rfl (brief (links _ rfl) S.manager r)
    · cases same
  | pause k ih => exact within.elim
  | await f k ih => exact within.elim

end Site
end AsyncImport
