import AsyncImport.Proofs.Rewiring

/-!
# Loading dependencies

A name gets its edges before its dependencies are requested, and loses them when they have been loaded
or when one of them could not be. None of the requests leads back to the name.
-/

namespace AsyncImport.Site

open Edit Change Protocol Relation

variable {S : Site} {u v w : World} {host : Host} {α β : Type} {a : Option Activity}

/-! ## What comes of the requests -/

def Answered (S : Site) (s : String) (x y : Value) (v : World) : Prop :=
  ∃ r f, x = .str r ∧ y = .obj .future f ∧ v.heap.Live f ∧
    ((v.heap.get f).status = .waiting → ∃ work, S.Settles v f r work) ∧
    (S.Cached v r ∧ (v.heap.get f).status ≠ .waiting ∨
      ¬ ReflTransGen (S.waits v).Edge (.text r) (.text s))

theorem Answered.moved {s : String} {x y : Value} (answered : S.Answered s x y w)
    (moved : S.Moved w v) : S.Answered s x y v := by
  obtain ⟨r, f, is, future, live, settles, apart⟩ := answered
  refine ⟨r, f, is, future, moved.evolves.live live, fun waiting => ?_, ?_⟩
  · exact (settles (undone_of_mono moved.evolves live waiting)).imp
      fun _ settles => settles.mono moved.evolves
  · rw [moved.waits]
    exact apart.imp_left fun ⟨cached, done⟩ =>
      ⟨cached.mono moved.evolves, fun waiting => done (undone_of_mono moved.evolves live waiting)⟩

theorem Owns.loading {t : Ref .future} {s : String} (owns : S.Owns w t s) : ∃ u, S.Loading w s u := by
  cases owns with
  | fetching loading _ | registered loading _ _ => exact ⟨_, loading⟩

/-- A name that is not in flight does not wait for one that is. -/
theorem apart_of_idle (tidy : S.Tidy w) {r s : String} {t : Ref .future} (owns : S.Owns w t s)
    (idle : ∀ c, S.record? w (.text r) = some c → c.phase ≠ .phase .loading) :
    ¬ ReflTransGen (S.waits w).Edge (.text r) (.text s) := by
  intro path
  rcases path.cases_head with same | ⟨b, edge, _⟩
  · obtain rfl : r = s := by simpa using same
    obtain ⟨_, _, found⟩ := owns.loading
    exact idle _ found rfl
  · exact absurd (tidy.next_idle idle) (List.ne_nil_of_mem edge)

theorem does_answer {s : String} {t : Ref .future} {d : Ref .draft} (dep : Value)
    (owns : S.Owns w t s) (named : (w.heap.get d).name = .str s) :
    S.Does (Loader.fetch S.loader dep (.obj .draft d)) w fun y v => S.Answered s dep y v := by
  refine does_tidy fun tidy => (does_fetch dep _).mono fun y v moved given => ?_
  obtain ⟨r, f, rfl, rfl, fetched⟩ := given
  obtain ⟨live, waits⟩ := fetched.waits moved.tidy
  refine ⟨r, f, rfl, rfl, live, fun waiting => (moved.tidy.loads (waits waiting)).2, ?_⟩
  rw [moved.waits]
  cases fetched with
  | known known status _ =>
    rcases known with cached | ⟨label, item, found⟩
    · exact .inl ⟨cached.mono moved.evolves, by simp [status]⟩
    · refine .inr (apart_of_idle tidy owns fun c same => ?_)
      obtain rfl := Option.some.inj (found.symm.trans same)
      simp
  | shared _ _ apart => exact .inr (apart s (by rw [← named]; rfl))
  | begun idle _ _ => exact .inr (apart_of_idle tidy owns idle)

/-! ## Waiting for the dependencies -/

section

variable {t g : Ref .future} {s : String} {xs ys : List Value}
  (edges : ∀ j, j ∈ S.next w s ↔ ∃ x ∈ xs, w.heap.key? x = some j)
  (answers : List.Forall₂ (fun x y => S.Answered s x y w) xs ys)
  (members : (w.heap.get g).status = .waiting → ∃ members, (w.heap.get g).members? = some members ∧
    ∀ f ∈ members, .obj .future f ∈ ys)
include edges answers members

theorem gathering_answers (live : w.heap.Live g)
    (waiting : (w.heap.get g).status = .waiting) :
    Gathering w g fun f => ∃ d work, S.Settles w f d work ∧ .text d ∈ S.next w s := by
  obtain ⟨ks, is, each⟩ := members waiting
  refine ⟨live, ks, is, fun f mem => ?_⟩
  obtain ⟨x, known, r, f', rfl, same, lives, settles, -⟩ := exists_left answers (each f mem)
  cases same
  refine ⟨lives, fun undone => ?_⟩
  obtain ⟨work, settles⟩ := settles undone
  exact ⟨r, work, settles, (edges _).mpr ⟨_, known, rfl⟩⟩

variable (orderly : S.Orderly w) (own : w.current = some t) (owns : S.Owns w t s)
include orderly own owns

/-- The edges that count do not lead back to the name. -/
theorem apart_awaiting (waiting : (w.heap.get g).status = .waiting) (ne : t ≠ g) {b : Key}
    (edge : S.Edge (w.awaiting t g) (.text s) b) :
    ¬ ReflTransGen (S.Edge (w.awaiting t g)) b (.text s) := by
  have runs := orderly.runs t own
  have passes := World.passes_awaiting waiting runs ne
  have same : S.Same w (w.awaiting t g) := .ofTurns orderly.tidy.stands passes.turns
  obtain ⟨edge, -, counts⟩ := edge
  rw [same.waits] at edge
  obtain ⟨x, mem, key⟩ := (edges b).mp edge
  obtain ⟨y, -, answered⟩ := exists_right answers mem
  obtain ⟨r, f, rfl, rfl, live, settles, apart⟩ := answered
  obtain rfl : Key.text r = b := Option.some.inj key
  have reaches (path : ReflTransGen (S.Edge (w.awaiting t g)) (.text r) (.text s)) :
      ReflTransGen (S.waits w).Edge (.text r) (.text s) :=
    ReflTransGen.mono (fun a b (edge : S.Edge _ a b) => same.waits ▸ edge.edge) _ _ path
  rcases apart with ⟨cached, -⟩ | apart
  · obtain ⟨n, name, t', g', ms, m, work, owned, for_, among, mem, undone, settles⟩ :=
      counts r rfl (same.cached.mpr cached)
    obtain rfl : s = n := by simpa using name
    obtain rfl := (owns.mono passes.turns.evolves same.loading.mpr).owner owned
    rw [World.waitsFor?_awaiting waiting runs ne] at for_
    obtain rfl := Option.some.inj for_
    rw [(passes.follows g).members] at among
    obtain ⟨ks, is, each⟩ := members waiting
    obtain rfl := Option.some.inj (is.symm.trans among)
    obtain ⟨z, -, r', m', rfl, same', -, settles', apart⟩ := exists_left answers (each m mem)
    cases same'
    have undone := passes.waiting undone
    obtain ⟨_, _, _, activity⟩ := settles' undone
    obtain ⟨_, _, activity'⟩ := settles_passes passes settles
    rw [activity] at activity'
    obtain rfl : r' = r := by simp_all
    rcases apart with ⟨-, done⟩ | apart
    · exact absurd undone done
    · exact fun path => apart (reaches path)
  · exact fun path => apart (reaches path)

end

/-! ## Holding edges -/

structure Holds (S : Site) (w v : World) : Prop where
  orderly : S.Orderly v
  evolves : w.Evolves v
  current : v.current = w.current
  owns : ∀ t, w.current = some t → ∀ {s}, S.Owns w t s → S.Owns v t s
  loading : ∀ t, w.current = some t → ∀ {s}, S.Loading v s t ↔ S.Loading w s t

theorem Keeps.holds (keeps : S.Keeps w v) : S.Holds w v where
  orderly := keeps.orderly
  evolves := keeps.evolves
  current := keeps.current
  owns t own _ owned := ((keeps.rely t own).owns owned).1
  loading t own _ := (keeps.rely t own).loading

namespace Holds

theorem trans (first : S.Holds u w) (next : S.Holds w v) : S.Holds u v where
  orderly := next.orderly
  evolves := first.evolves.trans next.evolves
  current := next.current.trans first.current
  owns t own _ owned := next.owns t (first.current.trans own) (first.owns t own owned)
  loading t own _ := (next.loading t (first.current.trans own)).trans (first.loading t own)

theorem keeps (holds : S.Holds w v) {s : String} (inside : S.Inside w s) (gone : S.next v s = []) :
    S.Keeps w v := by
  obtain ⟨t, own, owns, idle⟩ := inside
  refine ⟨holds.orderly, holds.evolves, holds.current, fun r same => ?_⟩
  obtain rfl := Option.some.inj (own.symm.trans same)
  refine ⟨fun {n} owned => ⟨holds.owns t own owned, ?_⟩, holds.loading t own⟩
  obtain rfl := owns.unique owned
  exact gone.trans idle.symm

end Holds

theorem holds_rewired {t : Ref .future} {s : String} {g : Waits} (orderly : S.Orderly w)
    (own : w.current = some t) (owns : S.Owns w t s)
    (others : ∀ k, k ≠ .text s → g.next k = (S.waits w).next k) : S.Holds w (S.rewired w g) where
  orderly := orderly.rewired owns others own
  evolves := evolves_rewired g w
  current := rfl
  owns _ _ _ := (owns_rewired g).mpr
  loading _ _ _ := loading_rewired g

theorem fair_moved (fair : (S.protocol host).Fair w u) (moved : S.Moved u v) :
    (S.protocol host).Fair w v where
  evolves := fair.evolves.trans moved.evolves
  current := moved.current.trans fair.current
  spares t task :=
    (fair.spares t task).trans (moved.spares t (by rwa [(fair.spares t task).task?]))
  rely t other task stands := by
    obtain ⟨_, rely⟩ := fair.rely t other task stands
    exact ⟨moved.tidy.stands, rely.trans (moved.rely t (by rwa [(fair.spares t task).task?]))⟩
  born t none task := by
    by_cases known : u.task? t = Option.none
    · exact (moved.fair : (S.protocol host).Fair u v).born t known task
    · obtain ⟨⟨_, born⟩, free⟩ := fair.born t none known
      have spares := moved.spares t known
      exact ⟨⟨moved.tidy.stands, born.later spares (moved.rely t known)⟩,
        spares.waitsFor?.trans free⟩

theorem safe_rewire {t : Ref .future} {s : String} {e : Edit α} {f : α → Routine β}
    {Q : Except (Ref .failure) β → World → Prop} (orderly : S.Orderly w)
    (own : w.current = some t) (owns : S.Owns w t s)
    (run : S.conduct.writes a w (e.after w).2 → ∃ o g, e w = (o, S.rewired w g) ∧
      (∀ k, k ≠ .text s → g.next k = (S.waits w).next k) ∧
      (∀ x, o = .ok x → S.Holds w (S.rewired w g) →
        (S.protocol host).Safe a Q (f x) (S.rewired w g)) ∧
      ∀ c, o = .error c → ∀ e v, S.Holds w v → S.next v s = g.next (.text s) → Q (.error e) v) :
    (S.protocol host).Safe a Q ((Routine.edit e).bind f) w := by
  refine safe_bind (Q := fun o v => (∀ x, o = .ok x → (S.protocol host).Safe a Q (f x) v) ∧
      ∀ e, o = .error e → Q (.error e) v) (safe_edit fun expected => ?_)
    (fun _ _ safe => safe.1 _ rfl) fun _ _ ends => ends.2 _ rfl
  obtain ⟨o, g, run, others, value, fault⟩ := run expected
  have holds := holds_rewired orderly own owns others
  cases o with
  | ok x =>
    rw [after_ok run]
    exact ⟨⟨orderly, holds.orderly⟩, fair_rewired owns others own,
      fun y same => Except.ok.inj same ▸ value x rfl holds, by simp⟩
  | error c =>
    have moved := moves_still (World.still_failure (S.rewired w g) c) holds.orderly.tidy
    have later := moved.keeps holds.orderly
    rw [after_error run]
    refine ⟨⟨orderly, later.orderly⟩, fair_moved (fair_rewired owns others own) moved, by simp,
      fun _ _ => ?_⟩
    refine fault c rfl _ _ (holds.trans later.holds) ?_
    unfold Site.next
    rw [moved.waits, waits_rewired g orderly.tidy.stands]

/-! ## Loading the dependencies -/

section

variable {t : Ref .future} {s : String} {d : Ref .draft}

theorem safe_stop {f : Unit → Routine β} (inside : S.Inside w s) (holds : S.Holds w v)
    (named : (v.heap.get d).name = .str s) (last : ∀ u, S.Keeps w u →
      (S.protocol host).Safe a (fun _ u => S.Keeps w u) (f ()) u) :
    (S.protocol host).Safe a (fun _ u => S.Keeps w u)
      ((do Loader.stopWaiting S.loader (← Edit.read d).name : Routine Unit).bind f) v := by
  obtain ⟨t, own, owns, idle⟩ := inside
  have owned := holds.owns t own owns
  rw [Routine.bind_eq, Routine.bind_assoc]
  refine safe_look holds.orderly (Quiet.run_read d v) ?_
  rw [named]
  refine safe_rewire holds.orderly (holds.current.trans own) owned fun _ =>
    ⟨.ok (), _, run_stopWaiting s v, fun k other => ?_, fun _ _ later => ?_, by simp⟩
  · rw [Waits.next_remove, if_neg other]
  · refine last _ ((holds.trans later).keeps ⟨t, own, owns, idle⟩ ?_)
    unfold Site.next
    rw [waits_rewired _ holds.orderly.tidy.stands, Waits.next_remove, if_pos rfl]

theorem live_named {r : String} (named : (w.heap.get d).name = .str r) : w.heap.Live d := by
  by_contra dead
  rw [Heap.get_not_live dead] at named
  cases named

theorem run_items {v : World} {x : Value} {xs : List Value} (run : (items x).run w = (.ok xs, v)) :
    w.heap.items? x = some xs ∧ v = w := by
  unfold items at run
  simp only [Quiet.run_bind, run_bind, Quiet.run_heap] at run
  split at run
  · cases run
    exact ⟨by assumption, rfl⟩
  · cases run

theorem Owns.settles {n : String} {x : Value} (owns : S.Owns w t s) (settles : S.Settles w t n x) :
    S.Loading w n t := by
  obtain ⟨_, _, activity⟩ := settles
  cases owns with
  | fetching loading settles =>
    obtain ⟨_, _, same⟩ := settles
    rw [activity] at same
    obtain rfl : n = s := by simp_all
    exact loading
  | registered _ _ loads =>
    obtain ⟨_, same, _⟩ := loads
    simp [activity] at same

theorem steady_requests (orderly : S.Orderly w) (own : w.current = some t) (owns : S.Owns w t s)
    (named : (w.heap.get d).name = .str s)
    (edges : ∀ xs, w.heap.items? (w.heap.get d).deps = some xs →
      ∀ j, j ∈ S.next w s ↔ ∃ x ∈ xs, w.heap.key? x = some j) :
    S.Steady host a (do
      let fetches ← (← items (← Edit.read d).deps).mapM fun dep =>
        (Loader.fetch S.loader dep (.obj .draft d) : Edit Value)
      let _ ← Routine.result (← group fetches) : Routine Unit) w := by
  refine steady_first orderly fun c v _ run _ => ?_
  cases run
  refine steady_first orderly fun xs v _ run _ => ?_
  obtain ⟨known, rfl⟩ := run_items run
  refine safe_bind (safe_collect (R := S.Answered s) orderly (fun x _ u moved => ?_) Answered.moved)
    (fun fetches u ⟨moved, answers⟩ => ?_) fun e u ⟨moved, _⟩ => moved.keeps orderly
  · have named' : (u.heap.get d).name = .str s := by
      have kept : (u.heap.get d).name = (v.heap.get d).name := moved.evolves.follows d (live_named named)
      exact kept.trans named
    exact does_answer x ((moved.rely t (orderly.runs t own).task?).owns owns).1 named'
  have keeps := moved.keeps orderly
  have answers := answers fetches rfl
  refine (steady_doing keeps.orderly (does_group fun y mem => ?_) fun g z moved' later is => ?_).after keeps
  · obtain ⟨x, _, r, f, _, is, live, _⟩ := exists_left answers mem
    exact ⟨f, is, live⟩
  obtain ⟨live, -, -, members⟩ := is
  have own' := (keeps.trans later).current.trans own
  obtain ⟨owns', same⟩ := ((keeps.trans later).rely t own).owns owns
  have edges' (j : Key) : j ∈ S.next z s ↔ ∃ x ∈ xs, z.heap.key? x = some j := by
    rw [same, edges xs known j]
    refine exists_congr fun x => and_congr_right fun mem => ?_
    obtain ⟨y, _, r, f, rfl, _⟩ := exists_right answers mem
    rfl
  have answers := answers.imp fun _ _ answered => Answered.moved answered moved'
  refine steady_bind (safe_await later.orderly (fun _ t' is runs waiting ne => ?_) fun o v keeps _ => ?_)
    fun _ v keeps => steady_done keeps.orderly _
  · obtain rfl := Option.some.inj (own'.symm.trans is)
    refine later.orderly.tidy.awaiting own' runs live waiting ne owns'.settles
      (fun {n b} owned edge => ?_) ?_
    · obtain rfl := owns'.unique owned
      exact apart_awaiting edges' answers members later.orderly own' owns' waiting ne edge
    · exact .fetches owns' (gathering_answers edges' answers members live waiting)
  · cases o <;> exact keeps

theorem steady_loadDependencies (orderly : S.Orderly w) (inside : S.Inside w s)
    (named : (w.heap.get d).name = .str s) :
    S.Steady host (some (.loadDependencies S.loader (.obj .draft d)))
      (Loader.loadDependencies S.loader (.obj .draft d)) w := by
  unfold Loader.loadDependencies
  refine steady_first orderly fun e v _ run keeps => ?_
  cases run
  refine steady_first orderly fun c v _ run _ => ?_
  cases run
  refine steady_first orderly fun some v _ run _ => ?_
  cases run
  split
  case isFalse => exact steady_done orderly _
  obtain ⟨t, own, owns, idle⟩ := id inside
  refine safe_rewire orderly own owns fun expected => ?_
  have keyed : w.Keyed d := expected.2.2 _ _ rfl
  show ∃ o g, Loader.startWaiting S.loader (w.heap.get d).name _ w = _ ∧ _
  rw [named]
  obtain ⟨o, g, run, others, fault, edges⟩ :=
    run_startWaiting (s := s) (w.heap.get d).deps orderly.tidy.stands keyed
  refine ⟨o, g, run, others, fun _ is holds => ?_, fun c is e v holds same => ?_⟩
  · have same : (S.rewired w g).heap.get d = w.heap.get d := get_rewired g d (by decide)
    have owned := (owns_rewired g).mpr owns
    have named' : ((S.rewired w g).heap.get d).name = .str s := by rw [same, named]
    have requests : S.Steady host (Option.some (.loadDependencies S.loader (.obj .draft d))) _ _ :=
      steady_requests holds.orderly own owned named' fun xs known j => ?_
    · refine safe_bind (Q := fun _ v => S.Keeps w v) ?_ (fun _ _ keeps => keeps) fun _ _ keeps => keeps
      have named {v : World} (keeps : S.Keeps (S.rewired w g) v) : (v.heap.get d).name = .str s := by
        have kept : (v.heap.get d).name = _ := keeps.evolves.follows d (live_named named')
        exact kept.trans named'
      refine safe_andThen (fun x v later => ?_) (fun e v later => ?_) requests
      · exact safe_stop inside (holds.trans later.holds) (named later) fun u keeps => keeps
      · exact safe_stop inside (holds.trans later.holds) (named later) fun u keeps => keeps
    · obtain ⟨ys, known', edges⟩ := edges is
      rw [same, items?_rewired] at known
      obtain rfl := Option.some.inj (known'.symm.trans known)
      have next : S.next (S.rewired w g) s = g.next (.text s) := by
        unfold Site.next
        rw [waits_rewired g orderly.tidy.stands]
      rw [next, edges j, idle]
      simp only [List.not_mem_nil, false_or]
      exact exists_congr fun x => and_congr_right fun _ => by rw [key?_rewired]
  · exact holds.keeps inside (same.trans ((fault c is).2.trans idle))

end

end AsyncImport.Site
