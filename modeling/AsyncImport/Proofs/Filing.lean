import AsyncImport.Proofs.Backing
import AsyncImport.Proofs.Groups
import AsyncImport.Proofs.Scheduling

/-!
# Filing

A record is filed under a name that has none. One that is in flight is taken off the file, or gives
way to its draft, in the hands of its own task alone; what the file's journal says of it is that the
task was about to succeed.
-/

namespace AsyncImport

def Storing.Ends (e : Storing) (t : Ref .future) : Prop :=
  ∃ label, e.before = some ⟨label, .phase .loading, .obj .future t⟩

theorem Storing.Ends.unique {e : Storing} {t u : Ref .future} (one : e.Ends t) (other : e.Ends u) :
    t = u := by
  obtain ⟨_, one⟩ := one
  obtain ⟨_, other⟩ := other
  exact (by simpa using one.symm.trans other : _ ∧ t = u).2

namespace Site

open Edit Change

section

variable (S : Site)

def Public : Activity → Prop
  | .invoke _ _ | .produce _ _ | .awaitValue _ | .settle _ _ _ _ _ | .buildNow _ _ | .link _ _ => False
  | .fetchDraft l _ _ | .pipelineDraft l _ | .loadDependencies l _ => l = S.loader
  | .buildReported l _ | .build l _ => l = S.loader
  | .buildFetched l _ fetching => l = S.loader ∧ ∃ f, fetching = .obj .future f
  | .importNames m _ | .importModule m _ | .require m _ => m = S.manager
  | .dependencyStage m _ => m = .obj .manager S.manager
  | _ => True

def Awaited (w : World) (x : Value) : Prop :=
  ∀ c : Ref .coroutine, x = .obj .coroutine c → w.heap.Live c ∧
    (S.Public (w.heap.get c).activity ∨ ∃ y, (w.heap.get c).activity = .awaitValue y)

inductive Works (w : World) (s : String) : Value → Prop
  | fetch {c : Ref .coroutine} {parent : Value} (live : w.heap.Live c)
      (activity : (w.heap.get c).activity = .fetchDraft S.loader (.str s) parent) :
      Works w s (.obj .coroutine c)
  | registered {f : Ref .future} {draft : Value}
      (activity : (w.heap.get f).activity? = some (.loadDependencies S.loader draft)) :
      Works w s (.obj .future f)

inductive Ours (w : World) : Activity → Prop
  | asked {a : Activity} (is : S.Public a) : Ours w a
  | again {x : Value} (awaited : S.Awaited w x) : Ours w (.awaitValue x)
  | settle {s : String} {work : Value} {markLoaded report : Bool} (works : S.Works w s work) :
      Ours w (.settle S.loader (.str s) work markLoaded report)

inductive Filed (w : World) (s : String) : Record → Prop
  | loading {label work : Value} {t : Ref .future} {markLoaded report : Bool}
      (task : w.task? t = some (.settle S.loader (.str s) work markLoaded report)) :
      Filed w s ⟨label, .phase .loading, .obj .future t⟩
  | pending {label item : Value} : Filed w s ⟨label, .phase .pending, item⟩
  | loaded {label item : Value} : Filed w s ⟨label, .phase .loaded, item⟩

def stored (w : World) : List Storing := (w.heap.get S.store).stored

structure Journals (w v : World) (es : List Storing) : Prop where
  stored : S.stored v = S.stored w ++ es
  source : ∀ {k r}, S.record? v k = some r →
    S.record? w k = some r ∨ ∃ e ∈ es, e.name = k ∧ e.after = r

/-- The draft that a task has come by took the place of the record in flight that it settles. -/
structure Replaces (w : World) (e : Storing) (t : Ref .future) : Prop where
  ends : e.Ends t
  loaded : e.after.phase = .phase .loaded
  settles : ∃ s work markLoaded report, e.name = .text s ∧
    (w.heap.get t).activity? = some (.settle S.loader (.str s) work markLoaded report)

/-- What was stored took no place, or that of a record in flight whose task succeeds. -/
def Rightful (w : World) (e : Storing) : Prop :=
  e.before = none ∨ ∃ t, S.Replaces w e t ∧
    (w.current = some t ∨ ∃ x, (w.heap.get t).status = .done x)

structure Booked (w : World) : Prop where
  stands : S.Stands w
  calm : Machine.Calm w
  ours : ∀ {t a}, w.task? t = some a → S.Ours w a
  records : ∀ {k r}, S.record? w k = some r → ∃ s, k = .text s ∧ S.Filed w s r
  settling : ∀ {t s work markLoaded report},
    w.task? t = some (.settle S.loader (.str s) work markLoaded report) →
    S.Loading w s t ∨ w.current = some t
  journal : ∀ e ∈ S.stored w, S.Rightful w e

structure Began (v : World) (t : Ref .future) (a : Activity) : Prop where
  origin : (v.heap.get t).origin = .task a none false
  ours : S.Ours v a
  loading : ∀ {s work markLoaded report},
    a = .settle S.loader (.str s) work markLoaded report → S.Loading v s t

structure Passable (w v : World) : Prop where
  endures : w.Endures v
  current : v.current = w.current
  spares : ∀ t, w.task? t ≠ none → World.Spares t w v
  stands : S.Stands v
  begun : ∀ {t a}, w.task? t = none → v.task? t = some a → S.Began v t a

inductive Enters (w v : World) (s : String) : Record → Prop
  | loading {label work : Value} {t : Ref .future} {markLoaded report : Bool}
      (new : ¬ w.heap.Live t)
      (task : v.task? t = some (.settle S.loader (.str s) work markLoaded report)) :
      Enters w v s ⟨label, .phase .loading, .obj .future t⟩
  | registered {label : Value} {d : Ref .draft} {p : Phase} (live : v.heap.Live d)
      (name : (v.heap.get d).name = .str s) (settled : p ≠ .loading) :
      Enters w v s ⟨label, .phase p, .obj .draft d⟩

structure Files (w v : World) : Prop extends S.Passable w v where
  names : w.NamesKept v
  filed : ∀ {k r}, S.record? v k = some r →
    S.record? w k = some r ∨ ∃ s, k = .text s ∧ S.Enters w v s r
  kept : ∀ {s t}, S.Loading w s t → S.Loading v s t
  journal : ∃ es, S.Journals w v es ∧ ∀ e ∈ es, e.before = none

structure Refiles (w v : World) : Prop extends S.Passable w v where
  filed : ∀ {k r}, S.record? v k = some r → S.record? w k = some r ∨ ∃ s, k = .text s ∧
    (S.Enters w v s r ∨ r.phase = .phase .loaded ∧ ∃ t, w.current = some t ∧ S.Loading w s t)
  kept : ∀ {s t}, S.Loading w s t → S.Loading v s t ∨ w.current = some t
  journal : ∃ es, S.Journals w v es ∧
    ∀ e ∈ es, e.before = none ∨ ∃ t, w.current = some t ∧ S.Replaces v e t

structure Outside (w v : World) : Prop extends S.Passable w v where
  store : v.heap.get S.store = w.heap.get S.store

structure Lets (t : Ref .future) (w v : World) : Prop where
  loading : ∀ {s}, S.Loading v s t ↔ S.Loading w s t
  entries : ∀ e ∈ S.stored v, e.Ends t → e ∈ S.stored w

end

variable {S : Site} {u v w : World}

/-! ## What lasts -/

theorem activity_endures (endures : w.Endures v) {t : Ref .future} {a : Activity}
    (activity : (w.heap.get t).activity? = some a) : (v.heap.get t).activity? = some a := by
  rw [(endures.futures t (live_of_activity activity)).activity, activity]

theorem done_endures (endures : w.Endures v) {t : Ref .future} {x : Value}
    (status : (w.heap.get t).status = .done x) : (v.heap.get t).status = .done x := by
  have live : w.heap.Live t := by
    by_contra dead
    rw [Heap.get_not_live dead] at status
    cases status
  rw [(endures.futures t live).status (by simp [status]), status]

theorem Awaited.mono (endures : w.Endures v) {x : Value} (awaited : S.Awaited w x) :
    S.Awaited v x := by
  intro c is
  obtain ⟨live, kind⟩ := awaited c is
  rw [endures.coroutines c live]
  exact ⟨endures.live live, kind⟩

theorem Works.mono (endures : w.Endures v) {s : String} {x : Value} (works : S.Works w s x) :
    S.Works v s x := by
  cases works with
  | fetch live activity =>
    exact .fetch (endures.live live) ((endures.coroutines _ live).trans activity)
  | registered activity => exact .registered (activity_endures endures activity)

theorem Ours.mono (endures : w.Endures v) {a : Activity} (ours : S.Ours w a) : S.Ours v a := by
  cases ours with
  | asked is => exact .asked is
  | again awaited => exact .again (awaited.mono endures)
  | settle works => exact .settle (works.mono endures)

theorem Replaces.mono (endures : w.Endures v) {e : Storing} {t : Ref .future}
    (replaces : S.Replaces w e t) : S.Replaces v e t := by
  obtain ⟨ends, loaded, s, work, m, r, name, activity⟩ := replaces
  exact ⟨ends, loaded, s, work, m, r, name, activity_endures endures activity⟩

theorem Filed.phase {s : String} {r : Record} (filed : S.Filed w s r) :
    ∃ p : Phase, r.phase = .phase p := by
  cases filed
  · exact ⟨.loading, rfl⟩
  · exact ⟨.pending, rfl⟩
  · exact ⟨.loaded, rfl⟩

theorem Enters.filed {s : String} {r : Record} (enters : S.Enters w v s r) : S.Filed v s r := by
  cases enters with
  | loading _ task => exact .loading task
  | @registered _ _ p _ _ settled =>
    cases p with
    | loading => exact absurd rfl settled
    | pending => exact .pending
    | loaded => exact .loaded

theorem Filed.mono (spares : ∀ t, w.task? t ≠ none → World.Spares t w v) {s : String} {r : Record}
    (filed : S.Filed w s r) : S.Filed v s r := by
  cases filed with
  | @loading _ _ t _ _ task => exact .loading (((spares t (by simp [task])).task?).trans task)
  | pending => exact .pending
  | loaded => exact .loaded

/-- A record in flight is a task that settles it. -/
theorem Booked.inFlight (booked : S.Booked w) {s : String} {label item : Value}
    (found : S.record? w (.text s) = some ⟨label, .phase .loading, item⟩) :
    ∃ t work markLoaded report, item = .obj .future t ∧
      w.task? t = some (.settle S.loader (.str s) work markLoaded report) := by
  obtain ⟨r, same, filed⟩ := booked.records found
  obtain rfl : s = r := by simpa using same
  cases filed with
  | loading task => exact ⟨_, _, _, _, rfl, task⟩

theorem Booked.loading (booked : S.Booked w) {s : String} {t : Ref .future}
    (loading : S.Loading w s t) :
    ∃ work markLoaded report, w.task? t = some (.settle S.loader (.str s) work markLoaded report) := by
  obtain ⟨label, found⟩ := loading
  obtain ⟨_, work, m, r, is, task⟩ := booked.inFlight found
  cases is
  exact ⟨work, m, r, task⟩

theorem Booked.free (booked : S.Booked w) {s : String}
    (free : ∀ p : Phase, (w.heap.get S.store).holds (.phase p) (.text s) = false) :
    S.record? w (.text s) = none := by
  by_contra some
  obtain ⟨⟨label, phase, item⟩, found⟩ := Option.ne_none_iff_exists'.mp some
  obtain ⟨_, -, filed⟩ := booked.records found
  obtain ⟨p, rfl⟩ := filed.phase
  exact Bool.eq_false_iff.mp (free p) (holds_iff.mpr ⟨label, item, found⟩)

/-! ## Changes of the file -/

theorem journals_nil (stored : S.stored v = S.stored w)
    (source : ∀ {k r}, S.record? v k = some r → S.record? w k = some r) : S.Journals w v [] :=
  ⟨by rw [stored, List.append_nil], fun found => .inl (source found)⟩

theorem Journals.trans {es fs : List Storing} (first : S.Journals u w es) (next : S.Journals w v fs) :
    S.Journals u v (es ++ fs) where
  stored := by rw [next.stored, first.stored, List.append_assoc]
  source found := by
    rcases next.source found with before | ⟨e, mem, is⟩
    · exact (first.source before).imp_right fun ⟨e, mem, is⟩ => ⟨e, List.mem_append_left _ mem, is⟩
    · exact .inr ⟨e, List.mem_append_right _ mem, is⟩

theorem Files.refiles (files : S.Files w v) : S.Refiles w v where
  toPassable := files.toPassable
  filed found := (files.filed found).imp_right fun ⟨s, is, enters⟩ => ⟨s, is, .inl enters⟩
  kept loading := .inl (files.kept loading)
  journal := by
    obtain ⟨es, journals, fresh⟩ := files.journal
    exact ⟨es, journals, fun e mem => .inl (fresh e mem)⟩

theorem Outside.record? (outside : S.Outside w v) (k : Key) : S.record? v k = S.record? w k := by
  unfold Site.record?
  rw [outside.store]

theorem Outside.journals (outside : S.Outside w v) : S.Journals w v [] :=
  journals_nil (by simp [stored, outside.store]) fun found => (outside.record? _).symm.trans found

theorem Outside.refiles (outside : S.Outside w v) : S.Refiles w v where
  toPassable := outside.toPassable
  filed found := .inl ((outside.record? _).symm.trans found)
  kept := fun ⟨label, found⟩ => .inl ⟨label, (outside.record? _).trans found⟩
  journal := ⟨[], outside.journals, by simp⟩

theorem Outside.files (outside : S.Outside w v) (names : w.NamesKept v) : S.Files w v where
  toPassable := outside.toPassable
  names := names
  filed found := .inl ((outside.record? _).symm.trans found)
  kept := fun ⟨label, found⟩ => ⟨label, (outside.record? _).trans found⟩
  journal := ⟨[], outside.journals, by simp⟩

theorem Lets.refl (t : Ref .future) (w : World) : S.Lets t w w := ⟨.rfl, fun _ mem _ => mem⟩

theorem Lets.trans {t : Ref .future} (first : S.Lets t u w) (next : S.Lets t w v) : S.Lets t u v where
  loading := next.loading.trans first.loading
  entries e mem ends := first.entries e (next.entries e mem ends) ends

theorem Outside.lets (outside : S.Outside w v) (t : Ref .future) : S.Lets t w v where
  loading {s} := by
    unfold Loading
    rw [outside.record?]
  entries e mem _ := by rwa [stored, outside.store] at mem

theorem Files.lets (files : S.Files w v) {t : Ref .future} (live : w.heap.Live t) : S.Lets t w v where
  loading := by
    refine ⟨fun ⟨label, found⟩ => ?_, files.kept⟩
    rcases files.filed found with before | ⟨s, -, enters⟩
    · exact ⟨label, before⟩
    · generalize is : (⟨label, .phase .loading, .obj .future t⟩ : Record) = r at enters
      cases enters with
      | loading new _ =>
        cases is
        exact absurd live new
      | registered => cases is
  entries e mem ends := by
    obtain ⟨es, journals, fresh⟩ := files.journal
    rw [journals.stored] at mem
    rcases List.mem_append.mp mem with old | new
    · exact old
    · obtain ⟨label, before⟩ := ends
      rw [fresh e new] at before
      cases before

theorem Refiles.lets (refiles : S.Refiles w v) {t : Ref .future} (live : w.heap.Live t)
    (other : w.current ≠ some t) : S.Lets t w v where
  loading := by
    refine ⟨fun ⟨label, found⟩ => ?_, fun loading => (refiles.kept loading).resolve_right other⟩
    rcases refiles.filed found with before | ⟨s, -, enters | ⟨loaded, -⟩⟩
    · exact ⟨label, before⟩
    · generalize is : (⟨label, .phase .loading, .obj .future t⟩ : Record) = r at enters
      cases enters with
      | loading new _ =>
        cases is
        exact absurd live new
      | registered => cases is
    · simp at loaded
  entries e mem ends := by
    obtain ⟨es, journals, fresh⟩ := refiles.journal
    rw [journals.stored] at mem
    rcases List.mem_append.mp mem with old | new
    · exact old
    · rcases fresh e new with none | ⟨u, own, replaces⟩
      · obtain ⟨label, before⟩ := ends
        rw [none] at before
        cases before
      · obtain rfl := ends.unique replaces.ends
        exact absurd own other

theorem Booked.refiled (booked : S.Booked w) (refiles : S.Refiles w v) : S.Booked v where
  stands := refiles.stands
  calm {t a f c} waiting origin := by
    have task : v.task? t = some a :=
      World.task?_eq_some.mpr ⟨waiting, World.activity?_eq_some.mpr ⟨f, c, origin⟩⟩
    by_cases known : w.task? t = none
    · have began := (refiles.begun known task).origin
      rw [origin] at began
      cases began
      rfl
    · have spares := refiles.spares t known
      exact booked.calm (spares.status.symm.trans waiting) (spares.origin.symm.trans origin)
  ours {t a} task := by
    by_cases known : w.task? t = none
    · exact (refiles.begun known task).ours
    · exact (booked.ours ((refiles.spares t known).task?.symm.trans task)).mono refiles.endures
  records {k r} found := by
    rcases refiles.filed found with before | ⟨s, is, enters | ⟨loaded, -⟩⟩
    · obtain ⟨s, is, filed⟩ := booked.records before
      exact ⟨s, is, filed.mono refiles.spares⟩
    · exact ⟨s, is, enters.filed⟩
    · obtain ⟨label, phase, item⟩ := r
      cases loaded
      exact ⟨s, is, .loaded⟩
  settling {t s work m r} task := by
    by_cases known : w.task? t = none
    · exact .inl ((refiles.begun known task).loading rfl)
    · rw [refiles.current]
      rcases booked.settling ((refiles.spares t known).task?.symm.trans task) with loading | own
      · exact refiles.kept loading
      · exact .inr own
  journal e mem := by
    obtain ⟨es, journals, fresh⟩ := refiles.journal
    rw [journals.stored] at mem
    unfold Rightful
    rw [refiles.current]
    rcases List.mem_append.mp mem with old | new
    · refine (booked.journal e old).imp_right fun ⟨t, replaces, succeeds⟩ => ?_
      exact ⟨t, replaces.mono refiles.endures,
        succeeds.imp_right fun ⟨x, done⟩ => ⟨x, done_endures refiles.endures done⟩⟩
    · exact (fresh e new).imp_right fun ⟨t, own, replaces⟩ => ⟨t, replaces, .inl own⟩

theorem Enters.mono {s : String} {r : Record} (enters : S.Enters u w s r) (files : S.Files w v) :
    S.Enters u v s r := by
  cases enters with
  | loading new task =>
    exact .loading new ((files.spares _ (by simp [task])).task?.trans task)
  | registered live name settled =>
    exact .registered (files.endures.live live) ((files.names _ live).trans name) settled

theorem Enters.before {s : String} {r : Record} (enters : S.Enters w v s r) (endures : u.Endures w) :
    S.Enters u v s r := by
  cases enters with
  | loading new task => exact .loading (fun live => new (endures.live live)) task
  | registered live name settled => exact .registered live name settled

namespace Files

theorem refl (booked : S.Booked w) : S.Files w w :=
  Outside.files ⟨⟨.refl w, rfl, fun t _ => .refl t w, booked.stands, fun none task => by
    rw [none] at task
    cases task⟩, rfl⟩ fun _ _ => rfl

theorem trans (first : S.Files u w) (next : S.Files w v) : S.Files u v where
  endures := first.endures.trans next.endures
  current := next.current.trans first.current
  spares t task := (first.spares t task).trans (next.spares t (by rwa [(first.spares t task).task?]))
  stands := next.stands
  begun {t a} none task := by
    by_cases known : w.task? t = Option.none
    · exact next.begun known task
    · have spares := next.spares t known
      obtain ⟨origin, ours, loading⟩ := first.begun none (spares.task?.symm.trans task)
      exact ⟨spares.origin.trans origin, ours.mono next.endures, fun is => next.kept (loading is)⟩
  names d live := (next.names d (first.endures.live live)).trans (first.names d live)
  filed found := by
    rcases next.filed found with before | ⟨s, is, enters⟩
    · exact (first.filed before).imp_right fun ⟨s, is, enters⟩ => ⟨s, is, enters.mono next⟩
    · exact .inr ⟨s, is, enters.before first.endures⟩
  kept loading := next.kept (first.kept loading)
  journal := by
    obtain ⟨es, one, fresh⟩ := first.journal
    obtain ⟨fs, other, later⟩ := next.journal
    exact ⟨es ++ fs, one.trans other, fun e mem =>
      (List.mem_append.mp mem).elim (fresh e) (later e)⟩

end Files

/-! ## The single changes -/

theorem outside_slight (stands : S.Stands w) (slight : w.Slight v) : S.Outside w v where
  endures :=
    { functions := slight.loose.functions
      size := slight.loose.size
      futures := fun f _ => by
        rw [slight.futures f]
        exact .refl _
      coroutines := fun c live => slight.loose.rests c (by decide) live }
  current := slight.loose.current
  spares t _ := .ofGet (slight.futures t)
  stands :=
    have loader : v.heap.get S.loader = w.heap.get S.loader :=
      slight.loose.rests S.loader (by decide) stands.loader
    have manager : v.heap.get S.manager = w.heap.get S.manager :=
      slight.loose.rests S.manager (by decide) stands.manager
    have pipeline : v.heap.get S.pipeline = w.heap.get S.pipeline :=
      slight.loose.rests S.pipeline (by decide) stands.pipeline
    { manager := Nat.lt_of_lt_of_le stands.manager (slight.loose.size _)
      loader := Nat.lt_of_lt_of_le stands.loader (slight.loose.size _)
      store := Nat.lt_of_lt_of_le stands.store (slight.loose.size _)
      pipeline := Nat.lt_of_lt_of_le stands.pipeline (slight.loose.size _)
      serves := manager ▸ stands.serves
      works := loader ▸ stands.works
      stores := loader ▸ stands.stores
      runs := loader ▸ stands.runs
      stages := pipeline ▸ stands.stages }
  begun {t a} none task := by
    unfold World.task? at none task
    rw [slight.futures t, none] at task
    cases task
  store := slight.loose.rests S.store (by decide) stands.store

theorem outside_turns (stands : S.Stands w) (turns : w.Turns v) (current : v.current = w.current)
    (spares : ∀ t, w.task? t ≠ none → World.Spares t w v) : S.Outside w v where
  endures := turns.evolves.endures
  current := current
  spares := spares
  stands := stands.mono turns.evolves
  begun none task := by
    rw [turns.tasks _ none] at task
    cases task
  store := turns.rests S.store (by decide) stands.store

theorem outside_still (stands : S.Stands w) (still : w.Still v) : S.Outside w v where
  endures := still.evolves.endures
  current := still.current
  spares t task := .ofGet (get_still still (World.task?_live task))
  stands := stands.mono still.evolves
  begun none task := by
    rw [task?_still still none] at task
    cases task
  store := still.rests S.store stands.store

theorem outside_spawned (stands : S.Stands w) {a : Activity} (is : S.Public a) :
    S.Outside w (spawned w a) where
  endures := (evolves_spawned w a).endures
  current := rfl
  spares := spares_spawned w a
  stands := stands.mono (evolves_spawned w a)
  begun {t b} none task := by
    rw [task?_spawned] at task
    split at task
    · next new =>
      cases task
      refine ⟨by rw [get_spawned, if_pos new], .asked is, fun same => ?_⟩
      rw [same] at is
      exact is.elim
    · rw [none] at task
      cases task
  store := World.get_alloc_kind _ (by decide)

theorem names_kept (evolves : w.Evolves v) : w.NamesKept v := fun d live => evolves.follows d live

theorem stored_restored (stands : S.Stands w) (c : Store) : S.stored (S.restored w c) = c.stored := by
  unfold stored restored
  rw [World.get_set _ _ _ stands.store, if_pos rfl]

theorem passable_restored (stands : S.Stands w) (c : Store) : S.Passable w (S.restored w c) where
  endures := (evolves_restored c w).endures
  current := rfl
  spares t _ := .ofGet (get_restored c t (by decide))
  stands := stands.mono (evolves_restored c w)
  begun none task := by
    rw [task?_restored, none] at task
    cases task

theorem record?_removed (stands : S.Stands w) (k j : Key) :
    S.record? (S.restored w ((w.heap.get S.store).remove k)) j =
      if j = k then none else S.record? w j := by
  rw [record?_restored _ stands]
  exact Assoc.get?_erase _ _ _

theorem record?_recorded (stands : S.Stands w) (p : Phase) (k : Key) (label item : Value) (j : Key) :
    S.record? (S.restored w ((w.heap.get S.store).set (.phase p) k label item)) j =
      if j = k then some ⟨((S.record? w k).map Record.label).getD label, .phase p, item⟩
      else S.record? w j := by
  rw [record?_restored _ stands]
  exact Assoc.get?_insert _ _ _ _

theorem journals_removed (stands : S.Stands w) (k : Key) :
    S.Journals w (S.restored w ((w.heap.get S.store).remove k)) [] :=
  journals_nil (stored_restored stands _) fun found => by
    rw [record?_removed stands] at found
    split at found
    · cases found
    · exact found

theorem journals_recorded (stands : S.Stands w) (p : Phase) (k : Key) (label item : Value) :
    S.Journals w (S.restored w ((w.heap.get S.store).set (.phase p) k label item))
      [⟨k, S.record? w k, ⟨((S.record? w k).map Record.label).getD label, .phase p, item⟩⟩] where
  stored := stored_restored stands _
  source {j r} found := by
    rw [record?_recorded stands] at found
    split at found
    · next same =>
      cases found
      exact .inr ⟨_, List.mem_singleton_self _, same.symm, rfl⟩
    · exact .inl found

theorem files_removed (booked : S.Booked w) {s : String}
    (settled : ∀ t, ¬ S.Loading w s t) :
    S.Files w (S.restored w ((w.heap.get S.store).remove (.text s))) where
  toPassable := passable_restored booked.stands _
  names := names_kept (evolves_restored _ w)
  filed {k r} found := by
    rw [record?_removed booked.stands] at found
    split at found
    · cases found
    · exact .inl found
  kept {r t} loading := by
    obtain ⟨label, found⟩ := loading
    refine ⟨label, ?_⟩
    rw [record?_removed booked.stands, if_neg fun same => ?_]
    · exact found
    · obtain rfl : r = s := by simpa using same
      exact settled t ⟨label, found⟩
  journal := ⟨[], journals_removed booked.stands _, by simp⟩

theorem files_registered (booked : S.Booked w) {s : String} {d : Ref .draft} {p : Phase}
    (label : Value) (free : S.record? w (.text s) = none) (live : w.heap.Live d)
    (name : (w.heap.get d).name = .str s) (settled : p ≠ .loading) :
    S.Files w (S.restored w
      ((w.heap.get S.store).set (.phase p) (.text s) label (.obj .draft d))) where
  toPassable := passable_restored booked.stands _
  names := names_kept (evolves_restored _ w)
  filed {k r} found := by
    rw [record?_recorded booked.stands] at found
    split at found
    · next same =>
      cases found
      refine .inr ⟨s, same, .registered ((evolves_restored _ w).live live) ?_ settled⟩
      rw [get_restored _ d (by decide), name]
    · exact .inl found
  kept {r t} loading := by
    obtain ⟨label, found⟩ := loading
    refine ⟨label, ?_⟩
    rw [record?_recorded booked.stands, if_neg fun same => ?_]
    · exact found
    · rw [same, free] at found
      cases found
  journal := by
    refine ⟨_, journals_recorded booked.stands _ _ _ _, fun e mem => ?_⟩
    obtain rfl := List.mem_singleton.mp mem
    exact free

theorem files_put (booked : S.Booked w) {s : String} {work : Value} (markLoaded report : Bool)
    (works : S.Works w s work) (free : S.record? w (.text s) = none) :
    S.Files w (S.put w s (.settle S.loader (.str s) work markLoaded report)) := by
  let a : Activity := .settle S.loader (.str s) work markLoaded report
  have stands := booked.stands
  have evolves := evolves_put (S := S) s a w
  have task : (S.put w s a).task? (w.heap.fresh .future) = some a := by rw [task?_put, if_pos rfl]
  exact
    { endures := evolves.endures
      current := rfl
      spares := spares_put s a
      stands := stands.mono evolves
      begun := fun {t b} none task => by
        rw [task?_put] at task
        split at task
        · next new =>
          cases task
          refine ⟨by rw [get_put, if_pos new], .settle (works.mono evolves.endures), fun same => ?_⟩
          cases same
          exact new ▸ loading_put s a stands
        · rw [none] at task
          cases task
      names := names_kept evolves
      filed := fun {k r} found => by
        by_cases same : k = .text s
        · obtain ⟨label, is⟩ := record?_put s a stands k
          rw [found, if_pos same] at is
          cases is
          exact .inr ⟨s, same, .loading (Heap.not_live_fresh _ _) task⟩
        · exact .inl ((others_put s a stands k same).symm.trans found)
      kept := fun {r t} ⟨label, found⟩ => by
        refine ⟨label, (others_put s a stands _ fun same => ?_).trans found⟩
        rw [same, free] at found
        cases found
      journal := by
        have spawned := stands.mono (evolves_spawned w a)
        have same : S.Same w (Site.spawned w a) := same_spawned w a
        have journals : S.Journals w (Site.spawned w a) [] :=
          journals_nil (by simp only [stored, same.store]) fun found =>
            (same.record? _).symm.trans found
        refine ⟨_, journals.trans (journals_recorded spawned .loading (.text s) _ _), fun e mem => ?_⟩
        obtain rfl := List.mem_singleton.mp mem
        exact free }

theorem files_released (booked : S.Booked w) {s : String} {label item : Value}
    (found : S.record? w (.text s) = some ⟨label, .phase .pending, item⟩) :
    S.Files w (S.released w s item) := by
  have settled (t : Ref .future) : ¬ S.Loading w s t := fun ⟨other, loading⟩ => by
    rw [found] at loading
    cases loading
  have removed := files_removed booked settled
  have spawned := outside_spawned (a := .loadDependencies S.loader item) removed.stands rfl
  exact removed.trans (spawned.files (names_kept (evolves_spawned _ _)))

theorem files_taken (booked : S.Booked w) {s : String} {label item : Value} (markLoaded report : Bool)
    (found : S.record? w (.text s) = some ⟨label, .phase .pending, item⟩) :
    S.Files w (S.put (S.released w s item) s
      (.settle S.loader (.str s) (.obj .future (w.heap.fresh .future)) markLoaded report)) := by
  have released := files_released booked found
  have activity : ((S.released w s item).heap.get (w.heap.fresh .future)).activity? =
      some (.loadDependencies S.loader item) := by
    rw [get_released, if_pos rfl]
    rfl
  refine released.trans (files_put (booked.refiled released.refiles) markLoaded report
    (.registered activity) ?_)
  rw [record?_released s item booked.stands, if_pos rfl]

def filing (S : Site) : S.Ledger :=
  have file {w v : World} (booked : S.Booked w) (files : S.Files w v) : S.Files w v ∧ S.Booked v :=
    ⟨files, booked.refiled files.refiles⟩
  { fine := S.Booked
    keeps := fun w v => S.Files w v ∧ S.Booked v
    refl := fun booked => ⟨.refl booked, booked⟩
    trans := fun first next => ⟨first.1.trans next.1, next.2⟩
    sound := And.right
    starts := True
    quiet := fun booked near => file booked ((outside_still booked.stands near.still).files
      (names_kept near.still.evolves))
    failure := fun {w f} booked => file booked ((outside_still booked.stands
      (World.still_failure w f)).files (names_kept (.alloc w .failure f)))
    stands := Booked.stands
    inFlight := fun booked found => by
      obtain ⟨t, _, _, _, is, -⟩ := booked.inFlight found
      exact ⟨t, is⟩
    resolved := fun {w} x booked => file booked ((outside_still booked.stands (still_resolved w x)).files
      (names_kept (still_resolved w x).evolves))
    reported := fun {w} s booked => file booked ((outside_spawned booked.stands
      (a := .buildReported S.loader (.str s)) rfl).files (names_kept (evolves_spawned w _)))
    fetched := fun {w s f} booked _ => file booked ((outside_spawned booked.stands
      (a := .buildFetched S.loader (.str s) (.obj .future f)) ⟨rfl, f, rfl⟩).files
        (names_kept (evolves_spawned w _)))
    begun := fun booked live activity free =>
      file booked (files_put booked true true (.fetch live activity) (booked.free free))
    taken := fun m r _ booked found => file booked (files_taken booked m r found)
    registered := fun label booked registers => file booked
      (files_registered booked label registers.free registers.live registers.name registers.settled)
    grouped := fun booked turns current spares _ _ => file booked
      ((outside_turns booked.stands turns current spares).files (names_kept turns.evolves)) }

end Site
end AsyncImport
