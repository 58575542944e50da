import AsyncImport.Proofs.Dependencies

/-!
# Settling records

The task that a name is in flight with takes the name out of flight when its work is done: the draft
is loaded, or the record is dropped. Its edges are gone by then.
-/

namespace AsyncImport.Site

open Edit Protocol Relation

variable {S : Site} {u v w : World} {host : Host} {α β : Type} {a : Option Activity}

structure Settled (S : Site) (w : World) (t : Ref .future) (s : String) (c : Store) : Prop where
  own : w.current = some t
  loading : S.Loading w s t
  idle : S.next w s = []
  /-- Nobody is loading the dependencies of a registration of the name. -/
  alone : ∀ u, w.task? u ≠ none → ¬ S.Loads w u s
  others : ∀ k, k ≠ .text s → c.records.get? k = S.record? w k
  settled : ∀ r, c.records.get? (.text s) = some r → r.phase = .phase .loaded

namespace Settled

variable {t : Ref .future} {s : String} {c : Store} (settled : S.Settled w t s c)
  (stands : S.Stands w)
include settled stands

theorem loading_iff {r : String} {u : Ref .future} :
    S.Loading (S.restored w c) r u ↔ r ≠ s ∧ S.Loading w r u := by
  unfold Loading
  by_cases same : r = s
  · subst same
    simp only [ne_eq, not_true_eq_false, false_and, iff_false, record?_restored c stands]
    rintro ⟨label, found⟩
    simpa using settled.settled _ found
  · rw [record?_restored c stands, settled.others _ (by simpa using same)]
    simp [same]

theorem owns_iff {r : String} {u : Ref .future} :
    S.Owns (S.restored w c) u r ↔ r ≠ s ∧ S.Owns w u r := by
  have evolves := evolves_restored (S := S) c w
  have settles {f : Ref .future} {x : Value} (given : S.Settles (S.restored w c) f r x) :
      S.Settles w f r x := by
    obtain ⟨markLoaded, report, activity⟩ := given
    rw [get_restored c f (by decide)] at activity
    exact ⟨markLoaded, report, activity⟩
  constructor
  · rintro (⟨loading, given⟩ | ⟨loading, given, d, activity, live, name⟩)
    · obtain ⟨ne, loading⟩ := (settled.loading_iff stands).mp loading
      exact ⟨ne, .fetching loading (settles given)⟩
    · obtain ⟨ne, loading⟩ := (settled.loading_iff stands).mp loading
      rw [get_restored c u (by decide)] at activity
      rw [get_restored c d (by decide)] at name
      exact ⟨ne, .registered loading (settles given) ⟨d, activity, World.live_set.mp live, name⟩⟩
  · rintro ⟨ne, ⟨loading, given⟩ | ⟨loading, given, loads⟩⟩
    · exact .fetching ((settled.loading_iff stands).mpr ⟨ne, loading⟩) (given.mono evolves)
    · exact .registered ((settled.loading_iff stands).mpr ⟨ne, loading⟩) (given.mono evolves)
        (loads.mono evolves)

theorem rely {u : Ref .future} (task : w.task? u ≠ none) (other : u ≠ t) :
    S.Rely u w (S.restored w c) := by
  have apart {r : String} (loading : S.Loading w r u) : r ≠ s := by
    rintro rfl
    exact other (loading.unique settled.loading)
  refine ⟨fun {r} owns => ⟨(settled.owns_iff stands).mpr ⟨?_, owns⟩, ?_⟩, fun {r} => ?_⟩
  · cases owns with
    | fetching loading _ => exact apart loading
    | registered loading _ loads =>
      rintro rfl
      exact settled.alone u task loads
  · unfold Site.next
    rw [waits_restored]
  · rw [settled.loading_iff stands]
    exact ⟨fun given => given.2, fun given => ⟨apart given, given⟩⟩

omit stands

theorem tidy (tidy : S.Tidy w) : S.Tidy (S.restored w c) := by
  have stands := tidy.stands
  have evolves := evolves_restored (S := S) c w
  have undone (u : Ref .future) (task : w.task? u ≠ none) : (S.restored w c).task? u ≠ none := by
    rwa [task?_restored]
  -- no record but that of `s` has changed, and `s` has no edges that could count any more
  refine
    { stands := stands.mono evolves
      calm := fun {u a f b} waiting origin => ?_
      errands := fun {u a} task => ?_
      records := fun {k r} found => ?_
      settling := fun {u name work markLoaded report} task => ?_
      loading := fun {u draft} task => ?_
      edges := fun {k} some => ?_
      acyclic := fun k cycle => tidy.acyclic k (TransGen.mono (fun a b edge => ?_) k k cycle)
      wired := wired_restored c tidy.wired
      blocked := fun {u f} task other for_ => ?_ }
  · rw [get_restored c u (by decide)] at waiting origin
    exact tidy.calm waiting origin
  · rw [task?_restored] at task
    exact (tidy.errands task).mono evolves
  · rw [record?_restored c stands] at found
    by_cases same : k = .text s
    · subst same
      obtain ⟨label, phase, item⟩ := r
      obtain rfl : phase = .phase .loaded := settled.settled _ found
      exact ⟨s, rfl, .loaded⟩
    · rw [settled.others k same] at found
      obtain ⟨r, name, sound⟩ := tidy.records found
      exact ⟨r, name, sound.mono evolves undone⟩
  · rw [task?_restored] at task
    obtain ⟨r, name', work, loading⟩ := tidy.settling task
    refine ⟨r, name', work.mono evolves, ?_⟩
    rcases loading with loading | own
    · by_cases same : r = s
      · subst same
        exact .inr (loading.unique settled.loading ▸ settled.own)
      · exact .inl ((settled.loading_iff stands).mpr ⟨same, loading⟩)
    · exact .inr own
  · rw [task?_restored] at task
    obtain ⟨r, owns⟩ := tidy.loading task
    refine ⟨r, (settled.owns_iff stands).mpr ⟨?_, owns⟩⟩
    rintro rfl
    rcases owns.activity with ⟨_, _, _, activity⟩ | loads
    · simp [activity_of_task task] at activity
    · exact settled.alone u (by simp [task]) loads
  · rw [waits_restored] at some
    obtain ⟨r, u, rfl, owns, task⟩ := tidy.edges some
    refine ⟨r, u, rfl, (settled.owns_iff stands).mpr ⟨?_, owns⟩, undone u task⟩
    rintro rfl
    exact some settled.idle
  · obtain ⟨edge, aside, counts⟩ := edge
    rw [waits_restored] at edge
    refine ⟨edge, fun u r own is owns => ?_, fun d is cached => ?_⟩
    · refine aside u r own is ((settled.owns_iff stands).mpr ⟨?_, owns⟩)
      rintro rfl
      exact absurd settled.idle (by subst is; exact List.ne_nil_of_mem edge)
    · have cached' : S.Cached (S.restored w c) d := cached.mono evolves
      obtain ⟨r, name, u, g, members, f, work, owns, for_, among, mem, waiting, x, y, activity⟩ :=
        counts d is cached'
      rw [get_restored c _ (by decide)] at for_ among waiting activity
      exact ⟨r, name, u, g, members, f, work, ((settled.owns_iff stands).mp owns).2, for_, among, mem,
        waiting, x, y, activity⟩
  · rw [task?_restored] at task
    rw [get_restored c u (by decide)] at for_
    refine (tidy.blocked task other for_).mono evolves (settled.rely stands task fun same => ?_)
    exact other (same ▸ settled.own)

theorem orderly (orderly : S.Orderly w) : S.Orderly (S.restored w c) where
  tidy := settled.tidy orderly.tidy
  runs r is := (orderly.runs r is).ofSpares (.ofGet (get_restored c r (by decide)))

theorem fair (stands : S.Stands w) (tidy : S.Tidy (S.restored w c)) :
    (S.protocol host).Fair w (S.restored w c) where
  evolves := evolves_restored c w
  current := rfl
  spares r _ := .ofGet (get_restored c r (by decide))
  rely r other task _ :=
    ⟨tidy.stands, settled.rely stands task fun same => other (same ▸ settled.own)⟩
  born r none task := by
    rw [task?_restored] at task
    exact absurd none task

theorem landed (tidy : S.Tidy w) {r : String} : ¬ S.Loading (S.restored w c) r t := by
  rw [settled.loading_iff tidy.stands]
  rintro ⟨ne, loading⟩
  obtain ⟨_, x, _, _, activity⟩ := tidy.loads loading
  obtain ⟨_, y, _, _, same⟩ := tidy.loads settled.loading
  rw [activity] at same
  exact ne (by simp_all)

end Settled

/-! ## The end of a task -/

structure Landed (S : Site) (w : World) (t : Ref .future) : Prop where
  orderly : S.Orderly w
  own : w.current = some t
  loading : ∀ {s}, ¬ S.Loading w s t
  other : ∃ b, (w.heap.get t).activity? = some b ∧ ∀ d, b ≠ .loadDependencies S.loader d

namespace Landed

variable {t : Ref .future} (landed : S.Landed w t)
include landed

theorem ended (o : Outcome) : S.Tidy (w.ended t o) := by
  have task := (landed.orderly.runs t landed.own).task?
  refine landed.orderly.tidy.ended landed.own o task landed.loading fun owns => ?_
  cases owns with
  | fetching loading _ => exact absurd loading landed.loading
  | registered _ _ loads =>
    obtain ⟨b, activity, ne⟩ := landed.other
    obtain ⟨d, same, _⟩ := loads
    exact absurd (Option.some.inj (activity.symm.trans same)) (ne _)

theorem keeps (keeps : S.Keeps w v) : S.Landed v t where
  orderly := keeps.orderly
  own := keeps.current.trans landed.own
  loading given := landed.loading ((keeps.rely t landed.own).loading.mp given)
  other := landed.other.imp fun _ ⟨activity, ne⟩ => ⟨activity_mono keeps.evolves activity, ne⟩

theorem safe {r : Routine α} (steady : S.Steady host a r w) :
    (S.protocol host).Safe a (fun _ v => S.Landed v t) r w :=
  steady.mono fun _ _ keeps => landed.keeps keeps

end Landed

/-! ## Settling -/

section

variable {t : Ref .future} {s : String} {work : Value} {markLoaded report : Bool}

structure Due (S : Site) (w : World) (t : Ref .future) (s : String) (work : Value) : Prop where
  orderly : S.Orderly w
  own : w.current = some t
  loading : S.Loading w s t
  settles : S.Settles w t s work
  idle : S.next w s = []
  alone : ∀ u, w.task? u ≠ none → ¬ S.Loads w u s

theorem Due.settled {c : Store} (due : S.Due w t s work)
    (others : ∀ k, k ≠ .text s → c.records.get? k = S.record? w k)
    (settled : ∀ r, c.records.get? (.text s) = some r → r.phase = .phase .loaded) :
    S.Settled w t s c := ⟨due.own, due.loading, due.idle, due.alone, others, settled⟩

theorem Due.safe {c : Store} {e : Edit α} {x : α} {f : α → Routine β}
    {Q : Except (Ref .failure) β → World → Prop} (due : S.Due w t s work)
    (settled : S.Settled w t s c) (run : e w = (.ok x, S.restored w c))
    (next : S.Landed (S.restored w c) t → (S.protocol host).Safe a Q (f x) (S.restored w c)) :
    (S.protocol host).Safe a Q ((Routine.edit e).bind f) w := by
  have orderly := settled.orderly due.orderly
  obtain ⟨_, _, activity⟩ := due.settles
  refine safe_bind (Q := fun o v => o = .ok x ∧ v = S.restored w c) (safe_edit fun _ => ?_)
    (fun y v ⟨is, same⟩ => ?_) fun e v ⟨is, _⟩ => by cases is
  · rw [after_ok run]
    exact ⟨⟨due.orderly, orderly⟩, settled.fair due.orderly.tidy.stands orderly.tidy, rfl, rfl⟩
  · cases is
    subst same
    have kept := get_restored (S := S) (w := w) c t (by decide)
    exact next ⟨orderly, due.own, settled.landed due.orderly.tidy, _, kept ▸ activity, by simp⟩

theorem run_discard (x : Edit α) (w : World) : (discard x : Edit Unit) w = match x w with
    | (.ok _, v) => (.ok (), v)
    | (.error e, v) => (.error e, v) := run_map (fun _ => ()) x w

theorem run_dropLoading (stands : S.Stands w) (own : w.current = some t) (loading : S.Loading w s t) :
    Loader.dropLoading S.loader (.str s) w =
      (.ok (), S.restored w ((w.heap.get S.store).remove (.text s))) := by
  obtain ⟨label, found⟩ := loading
  have item : (w.heap.get S.store).get? (.phase .loading) (.text s) = some (.obj .future t) :=
    get?_eq_some.mpr ⟨label, found⟩
  have get : (get : Edit World) w = (.ok w, w) := rfl
  unfold Loader.dropLoading
  simp only [run_bind, run_lift, run_itemIn stands, item, get, own, if_true, run_discard,
    run_remove stands]

theorem Due.dropped (due : S.Due w t s work) :
    S.Settled w t s ((w.heap.get S.store).remove (.text s)) := by
  refine due.settled (fun k ne => ?_) fun r found => ?_
  · show ((w.heap.get S.store).records.erase (.text s)).get? k = _
    rw [Assoc.get?_erase, if_neg ne]
    rfl
  · rw [show (Store.remove _ _).records = (w.heap.get S.store).records.erase (.text s) from rfl,
      Assoc.get?_erase, if_pos rfl] at found
    cases found

theorem Due.recorded (due : S.Due w t s work) (item : Value) :
    S.Settled w t s ((w.heap.get S.store).set (.phase .loaded) (.text s) (.str s) item) := by
  refine due.settled (fun k ne => ?_) fun r found => ?_
  · unfold Store.set
    rw [Assoc.get?_insert, if_neg ne]
    rfl
  · unfold Store.set at found
    rw [Assoc.get?_insert, if_pos rfl] at found
    cases found
    rfl

theorem due_of_keeps (own : w.current = some t) (loading : S.Loading w s t)
    (settles : S.Settles w t s work)
    (before : ∀ c, work = .obj .coroutine c → S.next w s = []) (keeps : S.Keeps w v)
    (done : ∀ f, work = .obj .future f → (v.heap.get f).status ≠ .waiting) : S.Due v t s work := by
  have rely := keeps.rely t own
  have tidy := keeps.orderly.tidy
  have loading' := rely.loading.mpr loading
  have settles' := settles.mono keeps.evolves
  obtain ⟨_, _, is⟩ := id settles'
  have alone (u : Ref .future) (task : v.task? u ≠ none) (loads : S.Loads v u s) : False := by
    obtain ⟨d, activity, _, name⟩ := id loads
    obtain ⟨b, task⟩ := Option.ne_none_iff_exists'.mp task
    obtain ⟨waiting, known⟩ := World.task?_eq_some.mp task
    obtain rfl := Option.some.inj (activity.symm.trans known)
    obtain ⟨r, owns⟩ := tidy.loading task
    cases owns with
    | fetching _ settles =>
      obtain ⟨_, _, same⟩ := settles
      simp [activity] at same
    | @registered t' loading'' settles loads =>
      obtain ⟨e, same, _, named⟩ := loads
      obtain rfl : d = e := by simp_all
      obtain rfl : s = r := by simpa using name.symm.trans named
      obtain rfl := loading'.unique loading''
      obtain ⟨_, _, same⟩ := settles
      refine done u ?_ waiting
      simp_all
  refine ⟨keeps.orderly, keeps.current.trans own, loading', settles', ?_, alone⟩
  by_contra some
  obtain ⟨r, u, name, owns, task⟩ := tidy.edges some
  obtain rfl : s = r := by simpa using name
  cases owns with
  | @fetching c loading'' given =>
    obtain rfl := loading'.unique loading''
    obtain ⟨_, _, same⟩ := given
    obtain rfl : work = .obj .coroutine c := by simp_all
    obtain ⟨_, kept⟩ := rely.owns (.fetching loading settles)
    exact some (kept.trans (before c rfl))
  | registered _ _ loads => exact alone u task loads

theorem safe_failed {Q : Except (Ref .failure) α → World → Prop} (due : S.Due w t s work)
    (e : Ref .failure) (ends : ∀ e v, S.Landed v t → Q (.error e) v) :
    (S.protocol host).Safe a Q ((do
      Loader.dropLoading S.loader (.str s)
      if report && (← Edit.read e).ordinary then
        Manager.report (← Loader.managerOf S.loader) (.str s) (.obj .failure e) : Routine Unit).bind
          fun _ => .fail e) w := by
  rw [Routine.bind_eq, Routine.bind_assoc]
  refine due.safe due.dropped (run_dropLoading due.orderly.tidy.stands due.own due.loading) fun landed => ?_
  refine safe_bind (landed.safe ?_) (fun _ v landed => ends e v landed) ends
  refine steady_first landed.orderly fun c v _ _ keeps => ?_
  split
  · refine steady_first keeps.orderly fun m v _ _ keeps => ?_
    exact steady_plainly keeps.orderly (Routine.within_report plain_plainly.telling m _ _ trivial)
  · exact steady_done keeps.orderly _

theorem safe_succeeded (due : S.Due w t s work) (draft : Value) :
    (S.protocol host).Safe a (fun _ v => S.Landed v t) (do
      if markLoaded then Loader.setItem S.loader .loaded (.str s) draft
      else Loader.dropLoading S.loader (.str s)
      Loader.delegate S.loader (.str s) : Routine Value) w := by
  have stands := due.orderly.tidy.stands
  split
  · refine due.safe (due.recorded draft) (run_setItem stands .loaded s draft) fun landed => ?_
    exact landed.safe (steady_quiet landed.orderly _)
  · refine due.safe due.dropped (run_dropLoading stands due.own due.loading) fun landed => ?_
    exact landed.safe (steady_quiet landed.orderly _)

/-- Whatever comes of the work of a record, nothing is in flight with the task that has settled it. -/
theorem safe_settle (orderly : S.Orderly w) (own : w.current = some t) (loading : S.Loading w s t)
    (settles : S.Settles w t s work) (is : S.Work w s work)
    (before : ∀ c, work = .obj .coroutine c → S.next w s = []) :
    (S.protocol host).Safe a (fun _ v => S.Landed v t)
      (Loader.settle S.loader (.str s) work markLoaded report) w := by
  have due : (S.protocol host).Safe a (fun _ v => S.Due v t s work) (Routine.awaitValue work) w := by
    cases is with
    | @fetch c _ live activity =>
      refine Safe.mono (Q := fun _ v => S.Keeps w v) ?_ fun o v keeps =>
        due_of_keeps own loading settles before keeps (by simp)
      have owns : S.Owns w t s := .fetching loading settles
      have inside : S.Inside w s := ⟨t, own, owns, before c rfl⟩
      have anchored : S.Anchored w := fun u is => by
        obtain rfl := Option.some.inj (own.symm.trans is)
        exact .fetching loading settles (before c rfl)
      refine steady_first orderly fun co u _ run keeps => ?_
      cases run
      split
      · exact steady_refused orderly _
      · refine steady_first orderly fun _ v _ _ keeps => steady_perform keeps.orderly fun _ => ?_
        show S.Fit v (w.heap.get c).activity
        rw [activity]
        exact ⟨rfl, keeps.anchored anchored, s, rfl, keeps.inside inside⟩
    -- the record waits for the task that loads the dependencies, and that is another task
    | @registered f loads =>
      obtain ⟨_, _, activity⟩ := id settles
      have ne : t ≠ f := by
        rintro rfl
        obtain ⟨_, same, _⟩ := loads
        simp [activity] at same
      refine safe_await orderly (fun _ u is runs waiting _ => ?_) fun o v keeps done => ?_
      · obtain rfl := Option.some.inj (own.symm.trans is)
        refine orderly.tidy.awaiting own runs loads.live waiting ne (fun {r x} given => ?_)
          (fun {r b} owns _ => ?_) (.work settles)
        · obtain ⟨_, _, same⟩ := given
          obtain rfl : r = s := by simp_all
          exact loading
        · rcases owns.activity with ⟨_, _, _, same⟩ | ⟨_, same, _⟩ <;> simp [activity] at same
      · have due := due_of_keeps own loading settles before keeps fun g is => by
          cases is
          exact done t own ne
        cases o <;> exact due
  unfold Loader.settle
  refine safe_bind (Q := fun o v => match o with
      | .ok _ => S.Due v t s work
      | .error _ => S.Landed v t)
    (safe_andThen (fun x v due => due) (fun e v due => safe_failed due e fun _ _ landed => landed) due)
    (fun draft v due => safe_succeeded due draft) fun e v landed => landed

end

end AsyncImport.Site
