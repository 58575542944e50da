import AsyncImport.Proofs.Changes
import AsyncImport.Proofs.Selection

/-!
# Running a hook

A hook calls the handlers of the plugins that were selected one after the other, and merges what comes
of each into the draft that the next one is called with. `Threads` tells what is called, and
`run_threads` that a hook does just this after the selection.
-/

namespace AsyncImport

open Edit Routine

/-! ## Handlers -/

namespace Handler

inductive Found (p : Ref .plugin) (t : Handler) (w : World) :
    List Exchange → Except (Ref .failure) Value → World → Prop
  | own (unnamed : t.isNamed = false) : Found p t w [] (.ok t.target) w
  | named {l o v} (name : t.isNamed) (resolved : (Plugin.target p t).Unfolds w l o v) :
      Found p t w l o v

inductive Answers (f : Value) (args : List Value) (w : World) : List Exchange → Outcome → World → Prop
  | raised {e v} : Answers f args w [⟨.call (.invoke f args), w, .error e, v⟩] (.error e) v
  | given {r v} (ready : r.isAwaitable = false) :
      Answers f args w [⟨.call (.invoke f args), w, .ok r, v⟩] (.ok r) v
  | awaited {r u o v} (later : r.isAwaitable) : Answers f args w
      [⟨.call (.invoke f args), w, .ok r, u⟩, ⟨.call (.awaitValue r), u, o, v⟩] o v

/-- A result is merged into a draft: nothing keeps it, a draft replaces it, the entries of a mapping are
taken over, and anything else is refused. -/
inductive Merged (d : Ref .draft) (w : World) :
    Value → Except (Ref .failure) (Ref .draft) → World → Prop
  | kept : Merged d w .none (.ok d) w
  | replaced (r : Ref .draft) : Merged d w (.obj .draft r) (.ok r) w
  | configured {r : Ref .dict} {v} (run : Draft.configureFrom d (w.heap.get r) w = (.ok (), v)) :
      Merged d w (.obj .dict r) (.ok d) v
  | unfit {r : Ref .dict} {f v} (run : Draft.configureFrom d (w.heap.get r) w = (.error f, v)) :
      Merged d w (.obj .dict r) (.error (v.heap.fresh .failure)) (v.alloc .failure f)
  | refused {result f} (something : result ≠ .none) (other : ∀ r, result ≠ .obj .draft r)
      (single : ∀ r, result ≠ .obj .dict r) (named : ∀ s, (w.heap.get d).name = .str s →
        f = .handlerResult s (w.heap.typeName result)) :
      Merged d w result (.error (w.heap.fresh .failure)) (w.alloc .failure f)

inductive Serves (p : Ref .plugin) (t : Handler) (d : Ref .draft) (w : World) :
    List Exchange → Except (Ref .failure) (Ref .draft) → World → Prop
  | unfound {l e v} (found : t.Found p w l (.error e) v) : Serves p t d w l (.error e) v
  | raised {l m f e u b v} (found : t.Found p w l (.ok f) u) (near : u.Near b)
      (answers : Answers f [.obj .draft d, t.options] b m (.error e) v) :
      Serves p t d w (l ++ m) (.error e) v
  | merged {l m f r o u b c v} (found : t.Found p w l (.ok f) u) (near : u.Near b)
      (answers : Answers f [.obj .draft d, t.options] b m (.ok r) c) (merged : Merged d c r o v) :
      Serves p t d w (l ++ m) o v

/-- Handlers run in a row, each on the draft that the one before has left, up to the first fault. -/
inductive Threads : List (Ref .plugin × Handler) → Ref .draft → World → List Exchange →
    Except (Ref .failure) (Ref .draft) → World → Prop
  | done {d w} : Threads [] d w [] (.ok d) w
  | failed {p t ts d w l e v} (serves : t.Serves p d w l (.error e) v) :
      Threads ((p, t) :: ts) d w l (.error e) v
  | next {p t ts d c w u v l m o} (serves : t.Serves p d w l (.ok c) u)
      (later : Threads ts c u m o v) : Threads ((p, t) :: ts) d w (l ++ m) o v

theorem threads_append {ts us : List (Ref .plugin × Handler)} {d c : Ref .draft} {w u v : World}
    {l m : List Exchange} {o : Except (Ref .failure) (Ref .draft)} (first : Threads ts d w l (.ok c) u)
    (next : Threads us c u m o v) : Threads (ts ++ us) d w (l ++ m) o v := by
  induction ts generalizing d w l with
  | nil =>
    cases first
    exact next
  | cons t ts ih =>
    cases first with
    | next serves later =>
      rw [List.append_assoc]
      exact .next serves (ih later)

theorem threads_failed {ts : List (Ref .plugin × Handler)} {d : Ref .draft} {w v : World}
    {l : List Exchange} {e : Ref .failure} (us : List (Ref .plugin × Handler))
    (threads : Threads ts d w l (.error e) v) : Threads (ts ++ us) d w l (.error e) v := by
  induction ts generalizing d w l with
  | nil => cases threads
  | cons t ts ih =>
    cases threads with
    | failed serves => exact .failed serves
    | next serves later => exact .next serves (ih later)

/-! ## What becomes of a result -/

section

variable {p : Ref .plugin} {t : Handler} {d : Ref .draft} {w u v : World} {l : List Exchange}

theorem answers_of_unfolds {f : Value} {args : List Value} {o : Outcome}
    (unfolds : ((callValue f args).bind settleGiven).Unfolds w l o v) : Answers f args w l o v := by
  rcases unfolds_bind.mp unfolds with ⟨r, m, n, u, rfl, called, later⟩ | ⟨e, rfl, called⟩
  · obtain rfl := unfolds_perform.mp called
    unfold settleGiven at later
    by_cases awaitable : r.isAwaitable
    · rw [if_pos awaitable] at later
      obtain rfl := unfolds_perform.mp later
      exact .awaited awaitable
    · rw [if_neg awaitable] at later
      obtain ⟨rfl, rfl, rfl⟩ := unfolds_done.mp later
      exact .given (by simpa using awaitable)
  · obtain rfl := unfolds_perform.mp called
    exact .raised

theorem merged_of_after {result : Value} {o : Except (Ref .failure) (Ref .draft)}
    (run : (Draft.merge d result).after w = (o, v)) : Merged d w result o v := by
  unfold Draft.merge at run
  split at run
  · cases run
    exact .kept
  · cases run
    exact .replaced _
  · next r =>
    have read_dict : (liftM (Edit.read r) : Edit Dict) w = (.ok (w.heap.get r), w) := rfl
    simp only [Draft.configure, Edit.after, run_bind, read_dict] at run
    rcases ends : Draft.configureFrom d (w.heap.get r) w with ⟨f | _, u⟩
    · simp only [ends] at run
      cases run
      exact .unfit ends
    · simp only [ends] at run
      cases run
      exact .configured ends
  · next something other single =>
    have read_draft : (liftM (Edit.read d) : Edit Draft) w = (.ok (w.heap.get d), w) := rfl
    rcases reads_spoken (w.heap.get d).name w with ⟨s, told, spoken⟩ | ⟨untold, f, spoken⟩
    · simp only [Edit.after, run_bind, read_draft, spoken, run_lift, Quiet.run_heap] at run
      cases run
      refine .refused something (fun r => other r) (fun r => single r) fun n name => ?_
      rw [name] at told
      cases told
      rfl
    · simp only [Edit.after, run_bind, read_draft, spoken, run_lift] at run
      cases run
      refine .refused something (fun r => other r) (fun r => single r) fun n name => ?_
      rw [name] at untold
      cases untold

end

end Handler

/-! ## The plugins stay as they are -/

namespace Roll

variable {S : Roll} {α β : Type} {w u v : World} {l : List Exchange} {o : Except (Ref .failure) α}

theorem filed_near (near : w.Near v) : S.Filed w v where
  fanout := by
    unfold Heap.get
    rw [near.table .fanout rfl]
  members p _ := by
    unfold Heap.get
    rw [near.table .plugin rfl]

def apart (S : Roll) : Change where
  fine _ := True
  keeps := S.Filed
  refl _ := .refl _
  trans := .trans
  sound _ := trivial
  quiet _ := filed_near
  failure {w f} _ := ⟨World.get_alloc_kind (k := .failure) f (by decide),
    fun _ _ => World.get_alloc_kind (k := .failure) f (by decide)⟩

theorem does_setOption (d : Ref .draft) (label x : Value) :
    S.apart.Does (Draft.setOption d label x) w fun _ _ => True := by
  have quiet (e : Quiet Unit) (u : World) : S.apart.Does (liftM e : Edit Unit) u fun _ _ => True :=
    (Change.does_quiet e).mono fun _ _ _ _ => trivial
  unfold Draft.setOption
  split
  case h_5 =>
    split
    · exact Change.does_ok rfl (fun _ => ⟨World.get_set_kind (k := .draft) _ (by decide),
        fun _ _ => World.get_set_kind (k := .draft) _ (by decide)⟩) fun _ => trivial
    · exact Change.does_throw _
  case h_2 | h_3 | h_4 => exact Change.does_bind (Change.does_quiet _) fun _ u _ _ => quiet _ u
  all_goals exact quiet _ w

theorem filed_configureFrom (d : Ref .draft) (options : Dict) (w : World) :
    S.Filed w (Draft.configureFrom d options w).2 :=
  (Change.does_forM (C := S.apart) (fun e _ _ _ => does_setOption d e.1 e.2) trivial).1

theorem filed_merged {d : Ref .draft} {result : Value} {o : Except (Ref .failure) (Ref .draft)}
    (merged : Handler.Merged d w result o v) : S.Filed w v := by
  cases merged with
  | kept => exact .refl w
  | replaced r => exact .refl w
  | @configured r _ run =>
    have filed := filed_configureFrom (S := S) d (w.heap.get r) w
    rwa [run] at filed
  | @unfit r _ _ run =>
    have filed := filed_configureFrom (S := S) d (w.heap.get r) w
    rw [run] at filed
    exact filed.trans (S.apart.failure trivial)
  | refused => exact S.apart.failure trivial

def Files (S : Roll) (c : Routine α) : Prop :=
  ∀ w l o v, c.Unfolds w l o v → (∀ x ∈ l, S.Calm x) → S.Filed w v

theorem files_done (a : α) : S.Files (.done a) := by
  intro w l o v unfolds _
  obtain ⟨rfl, rfl, rfl⟩ := unfolds_done.mp unfolds
  exact .refl _

theorem files_quiet (e : Quiet α) : S.Files (edit (liftM e)) := by
  intro w l o v unfolds _
  obtain ⟨rfl, ends⟩ := unfolds_edit.mp unfolds
  have filed : S.Filed w ((liftM e : Edit α).after w).2 :=
    ((Change.does_quiet (C := S.apart) e).after trivial).1
  rwa [ends] at filed

theorem files_perform (a : Activity) : S.Files (perform a) := by
  intro w l o v unfolds calm
  obtain rfl := unfolds_perform.mp unfolds
  exact (calm _ List.mem_cons_self).filed

theorem files_bind {c : Routine β} {f : β → Routine α} (first : S.Files c)
    (next : ∀ b, S.Files (f b)) : S.Files (c.bind f) := by
  intro w l o v unfolds calm
  rcases unfolds_bind.mp unfolds with ⟨b, m, n, u, rfl, here, later⟩ | ⟨e, rfl, here⟩
  · obtain ⟨before, after⟩ := List.forall_mem_append.mp calm
    exact (first _ _ _ _ here before).trans (next b _ _ _ _ later after)
  · exact first _ _ _ _ here calm

theorem files_raise (f : Refusal) : S.Files (raise f : Routine α) := files_quiet (throw f)

theorem files_target (p : Ref .plugin) (t : Handler) : S.Files (Plugin.target p t) := by
  have awaiting (v : Value) : S.Files (awaitGiven v) := by
    unfold awaitGiven
    split
    · exact files_perform _
    · exact files_raise _
  have resolving (r : Ref .registry) (name : Value) : S.Files (Registry.resolve r name) := by
    refine files_bind (files_quiet _) fun registry => ?_
    split
    · exact files_bind (files_quiet _) fun _ => files_raise _
    · exact files_bind (files_perform _) fun given => files_bind (awaiting given) fun module =>
        files_quiet _
  unfold Plugin.target
  split
  · exact files_bind (files_quiet _) fun r => resolving r t.target
  · exact files_done _

/-! ## The run -/

variable {p : Ref .plugin} {t : Handler} {k : Hook} {d : Ref .draft}

theorem filed_found {o : Except (Ref .failure) Value} (found : t.Found p w l o v)
    (calm : ∀ x ∈ l, S.Calm x) : S.Filed w v := by
  cases found with
  | own => exact .refl w
  | named _ resolved => exact files_target p t _ _ _ _ resolved calm

theorem filed_answers {f : Value} {args : List Value} {o : Outcome}
    (answers : Handler.Answers f args w l o v) (calm : ∀ x ∈ l, S.Calm x) : S.Filed w v := by
  cases answers with
  | raised => exact (calm _ List.mem_cons_self).filed
  | given => exact (calm _ List.mem_cons_self).filed
  | awaited =>
    exact (calm _ List.mem_cons_self).filed.trans (calm _ (List.mem_cons_of_mem _ List.mem_cons_self)).filed

theorem filed_serves {o : Except (Ref .failure) (Ref .draft)} (serves : t.Serves p d w l o v)
    (calm : ∀ x ∈ l, S.Calm x) : S.Filed w v := by
  cases serves with
  | unfound found => exact filed_found found calm
  | raised found near answers =>
    obtain ⟨before, after⟩ := List.forall_mem_append.mp calm
    exact ((filed_found found before).trans (filed_near near)).trans (filed_answers answers after)
  | merged found near answers merged =>
    obtain ⟨before, after⟩ := List.forall_mem_append.mp calm
    have answered := ((filed_found found before).trans (filed_near near)).trans
      (filed_answers answers after)
    exact answered.trans (filed_merged merged)

theorem run_logRun (p : Ref .plugin) (k : Hook) (d : Ref .draft) (w : World) :
    ∃ u, (Plugin.logRun p k d).run w = (.ok (), u) ∧ w.Near u :=
  ⟨_, rfl, (Plugin.logRun p k d).near w⟩

theorem found_of_unfolds {o : Except (Ref .failure) Value}
    (unfolds : (Plugin.target p t).Unfolds w l o v) : t.Found p w l o v := by
  cases name : t.isNamed with
  | true => exact .named name unfolds
  | false =>
    rw [Plugin.target, name] at unfolds
    obtain ⟨rfl, rfl, rfl⟩ := unfolds_done.mp unfolds
    exact .own name

theorem merged_of_unfolds {result : Value} {o : Outcome} (unfolds : ((edit (Draft.merge d result)).bind
    fun c => done (.obj .draft c)).Unfolds w l o v) :
    ∃ r, l = [] ∧ Handler.Merged d w result r v ∧ o = r.map (.obj .draft) := by
  rcases unfolds_bind.mp unfolds with ⟨c, _, _, u, rfl, merging, ends⟩ | ⟨e, rfl, merging⟩
  · obtain ⟨rfl, run⟩ := unfolds_edit.mp merging
    obtain ⟨rfl, rfl, rfl⟩ := unfolds_done.mp ends
    exact ⟨.ok c, rfl, Handler.merged_of_after run, rfl⟩
  · obtain ⟨rfl, run⟩ := unfolds_edit.mp merging
    exact ⟨.error e, rfl, Handler.merged_of_after run, rfl⟩

theorem serves_of_unfolds {o : Outcome}
    (unfolds : (Plugin.runHandler p k (.obj .draft d) t).Unfolds w l o v) :
    ∃ r, t.Serves p d w l r v ∧ o = r.map (.obj .draft) := by
  rcases unfolds_bind.mp unfolds with ⟨f, m, n, u, rfl, found, later⟩ | ⟨e, rfl, found⟩
  · have found := found_of_unfolds found
    have draft : (asDraft (.obj .draft d)).run u = (.ok d, u) := rfl
    obtain ⟨b, logged, near⟩ := run_logRun p k d u
    have later := (unfolds_doing logged).mp ((unfolds_doing draft).mp later)
    -- The call and the wait for its result are taken together.
    have later : (((callValue f [.obj .draft d, t.options]).bind settleGiven).bind fun x =>
        (edit (Draft.merge d x)).bind fun c => done (.obj .draft c)).Unfolds b n o v := by
      rw [bind_assoc]
      exact later
    rcases unfolds_bind.mp later with ⟨x, n, q, c, rfl, answered, ends⟩ | ⟨e, rfl, answered⟩
    · obtain ⟨r, rfl, merged, rfl⟩ := merged_of_unfolds ends
      refine ⟨r, ?_, rfl⟩
      rw [List.append_nil]
      exact .merged found near (Handler.answers_of_unfolds answered) merged
    · exact ⟨.error e, .raised found near (Handler.answers_of_unfolds answered), rfl⟩
  · exact ⟨.error e, .unfound (found_of_unfolds found), rfl⟩

theorem filed_threads {ts : List (Ref .plugin × Handler)} {o : Except (Ref .failure) (Ref .draft)}
    (threads : Handler.Threads ts d w l o v) (calm : ∀ x ∈ l, S.Calm x) : S.Filed w v := by
  induction threads with
  | done => exact .refl _
  | failed serves => exact filed_serves serves calm
  | next serves _ ih =>
    obtain ⟨before, after⟩ := List.forall_mem_append.mp calm
    exact (filed_serves serves before).trans (ih after)

theorem threads_handlers {ts : List Handler} {o : Outcome}
    (unfolds : (ts.foldlM (Plugin.runHandler p k) (.obj .draft d)).Unfolds w l o v) :
    ∃ r, Handler.Threads (ts.map (p, ·)) d w l r v ∧ o = r.map (.obj .draft) := by
  induction ts generalizing d w l with
  | nil =>
    obtain ⟨rfl, rfl, rfl⟩ := unfolds_done.mp unfolds
    exact ⟨.ok d, .done, rfl⟩
  | cons t ts ih =>
    rw [List.foldlM_cons] at unfolds
    rcases unfolds_bind.mp unfolds with ⟨b, m, n, u, rfl, first, later⟩ | ⟨e, rfl, first⟩
    · obtain ⟨_ | c, serves, same⟩ := serves_of_unfolds first
      · cases same
      · cases same
        obtain ⟨r, threads, rfl⟩ := ih later
        exact ⟨r, .next serves threads, rfl⟩
    · obtain ⟨_ | c, serves, same⟩ := serves_of_unfolds first
      · cases same
        exact ⟨.error e, .failed serves, rfl⟩
      · cases same

def steps (h : Heap) (k : Hook) (ps : List (Ref .plugin)) : List (Ref .plugin × Handler) :=
  ps.flatMap fun p => ((h.get p).handlersFor k).map (p, ·)

theorem threads_plugins {ps : List (Ref .plugin)} {o : Outcome} (stands : S.Stands k u)
    (filed : S.Filed u w) (members : ∀ p ∈ ps, p ∈ S.members)
    (unfolds : Unfolds (ps.foldlM (fun x p => do Plugin.run p (← Edit.read S.fanout).hook x)
      (.obj .draft d)) w l o v) (calm : ∀ x ∈ l, S.Calm x) :
    ∃ r, Handler.Threads (steps u.heap k ps) d w l r v ∧ o = r.map (.obj .draft) := by
  -- Handlers are read when the turn of their plugin comes; by `filed` they are still those of `u`.
  induction ps generalizing d w l with
  | nil =>
    obtain ⟨rfl, rfl, rfl⟩ := unfolds_done.mp unfolds
    exact ⟨.ok d, .done, rfl⟩
  | cons p ps ih =>
    have run {n q z} (one : Unfolds (do Plugin.run p (← Edit.read S.fanout).hook (.obj .draft d))
        w n q z) : ∃ r, Handler.Threads (((u.heap.get p).handlersFor k).map (p, ·)) d w n r z ∧
          q = r.map (.obj .draft) := by
      have read_fanout : (Edit.read S.fanout).run w = (.ok (w.heap.get S.fanout), w) := rfl
      have read_plugin : (Edit.read p).run w = (.ok (w.heap.get p), w) := rfl
      have parsed : (Hook.parse (w.heap.get S.fanout).hook).run w = (.ok k, w) := by
        rw [filed.fanout]
        exact (reads_hook _).found stands.label
      have one := (unfolds_doing read_fanout).mp one
      have one := (unfolds_doing read_plugin).mp ((unfolds_doing parsed).mp one)
      rw [← filed.members p (members p List.mem_cons_self)]
      exact threads_handlers one
    rw [List.foldlM_cons] at unfolds
    rcases unfolds_bind.mp unfolds with ⟨b, m, n, z, rfl, first, later⟩ | ⟨e, rfl, first⟩
    · obtain ⟨_ | c, threads, same⟩ := run first
      · cases same
      · cases same
        obtain ⟨before, after⟩ := List.forall_mem_append.mp calm
        have filed := filed.trans (filed_threads threads before)
        obtain ⟨r, rest, rfl⟩ := ih filed (fun q mem => members q (List.mem_cons_of_mem _ mem)) later
          after
        exact ⟨r, Handler.threads_append threads rest, rfl⟩
    · obtain ⟨_ | c, threads, same⟩ := run first
      · cases same
        exact ⟨.error e, Handler.threads_failed _ threads, rfl⟩
      · cases same

/-- What running a hook comes to: comparisons that select plugins, unless one of these fails, and then
the handlers of those selected, from the draft that the hook was run on. -/
def Runs (S : Roll) (k : Hook) (w : World) (calls : List Exchange) (o : Outcome) (v : World) : Prop :=
  ∃ asked ran, calls = asked ++ ran ∧ (∀ x ∈ asked, x.request.Compares) ∧
    ((∃ x e, asked.getLast? = some x ∧ x.outcome = .error e ∧ ran = [] ∧ o = .error e) ∨
      ∃ ps u r, S.Selects w.heap k asked ps ∧ S.Still w u ∧
        Handler.Threads (steps w.heap k ps) S.draft u ran r v ∧ o = r.map (.obj .draft))

theorem run_threads {r : Ref .registry} {hook : Value} (known : Hook.ofValue? hook = some k)
    (entry : (w.heap.get r).fanout? k = some S.fanout) (stands : S.Stands k w) :
    (∀ answer, ∃ calls o v, (Registry.run r hook (.obj .draft S.draft)).Unfolds w calls o v ∧
      Answered answer calls) ∧
    ∀ calls o v, (Registry.run r hook (.obj .draft S.draft)).Unfolds w calls o v →
      (∀ x ∈ calls, S.Calm x) → S.Runs k w calls o v := by
  refine ⟨fun answer => exists_unfolds _ answer w, fun calls o v unfolds calm => ?_⟩
  have found : (Registry.fanoutFor r hook).run w = (.ok S.fanout, w) := by
    have parsed : (Hook.parse hook).run w = (.ok k, w) := (reads_hook hook).found known
    simp [Registry.fanoutFor, run_bind, parsed, entry]
  have unfolds := (unfolds_doing found).mp unfolds
  rcases unfolds_bind.mp unfolds with ⟨ps, m, n, u, rfl, first, later⟩ | ⟨e, rfl, first⟩
  · obtain ⟨before, after⟩ := List.forall_mem_append.mp calm
    have settles := settles_selected stands first before
    obtain ⟨_, ⟨⟩, selects⟩ | ⟨_, _, _, _, ⟨⟩⟩ := settles.ends
    obtain ⟨r, threads, rfl⟩ := threads_plugins stands settles.keeps.still.toFiled
      (fun p mem => selects.subset mem) later after
    exact ⟨m, n, rfl, settles.asks, .inr ⟨ps, u, r, selects, settles.keeps.still, threads, rfl⟩⟩
  · have settles := settles_selected stands first calm
    obtain ⟨_, ⟨⟩, _⟩ | ⟨x, e, last, raised, ⟨⟩⟩ := settles.ends
    exact ⟨calls, [], by simp, settles.asks, .inl ⟨x, e, last, raised, rfl, rfl⟩⟩

/-! ## Rules that a function of the host decides -/

def declared : World where
  heap :=
    { dicts := #[Dict.ofTexts [("path", .str "kept")], Dict.ofTexts [("path", .str "moved")],
        Dict.ofTexts [("match", .obj .dict ⟨0⟩), ("transform", .host "first")],
        Dict.ofTexts [("match", .obj .dict ⟨1⟩), ("transform", .host "second")]] }

def enrolled : World := (Edit.after (do
  let r ← Registry.create .none .none (.host "equal")
  let _ ← Registry.register r (.str "a") (.obj .dict ⟨2⟩)
  let _ ← Registry.register r (.str "b") (.obj .dict ⟨3⟩)
  let _ ← Draft.create (.str "n") { path := .str "kept" }) declared).2

def pair : Roll := ⟨⟨1⟩, [⟨0⟩, ⟨1⟩], ⟨0⟩⟩

def transforming : Routine Value := Registry.run ⟨0⟩ (.str "transform") (.obj .draft pair.draft)

theorem stands_enrolled : pair.Stands .transform enrolled where
  label := by decide +kernel
  members := by decide +kernel
  plain := ⟨⟨"n", by decide +kernel⟩, .inr ⟨"kept", by decide +kernel⟩, ⟨⟨1⟩, by decide +kernel⟩⟩

def comparing : Request → World → Outcome × World
  | .call (.invoke (.host "equal") [v, p]), w => (.ok (.bool (v = p)), w)
  | _, w => (.ok .none, w)

theorem calm_comparing : ∀ x ∈ (transforming.traced comparing enrolled).1, pair.Calm x := by
  intro x mem
  have answered := traced_answered comparing transforming enrolled x mem
  have same (q : Request) (w : World) : (comparing q w).2 = w := by
    unfold comparing
    split <;> rfl
  have after : x.after = x.before := (congrArg Prod.snd answered).trans (same _ _)
  exact ⟨after ▸ .refl _, fun _ => after ▸ .refl _⟩

theorem run_threads_one : ∃ calls o v, transforming.Unfolds enrolled calls o v ∧
    calls.map Exchange.request = [.call (.invoke (.host "equal") [.str "kept", .str "kept"]),
      .call (.invoke (.host "equal") [.str "kept", .str "moved"]),
      .call (.invoke (.host "first") [.obj .draft ⟨0⟩, .none])] ∧
    pair.Runs .transform enrolled calls o v := by
  have known : Hook.ofValue? (.str "transform") = some .transform := by decide +kernel
  obtain ⟨-, runs⟩ := run_threads (r := ⟨0⟩) known (by decide +kernel) stands_enrolled
  have unfolds := unfolds_traced comparing transforming enrolled
  exact ⟨_, _, _, unfolds, by decide +kernel, runs _ _ _ unfolds calm_comparing⟩

def moving : Request → World → Outcome × World
  | .call (.invoke (.host "equal") [v, p]), w =>
    (.ok (.bool (v = p)), w.set pair.draft { w.heap.get pair.draft with path := .str "moved" })
  | _, w => (.ok .none, w)

theorem filed_moving : ∀ x ∈ (transforming.traced moving enrolled).1, pair.Filed x.before x.after := by
  intro x mem
  have answered := traced_answered moving transforming enrolled x mem
  have after : x.after = (moving x.request x.before).2 := congrArg Prod.snd answered
  rw [after]
  unfold moving
  split
  · exact ⟨World.get_set_kind (k := .draft) _ (by decide),
      fun _ _ => World.get_set_kind (k := .draft) _ (by decide)⟩
  · exact .refl _

theorem asked_of_selects {asked : List Exchange} {ps : List (Ref .plugin)}
    (selects : pair.Selects enrolled.heap .transform asked ps) :
    ∃ x ∈ asked, x.request = .call (.invoke (.host "equal") [.str "kept", .str "moved"]) := by
  have handles : (enrolled.heap.get (⟨1⟩ : Ref .plugin)).hasHandlers .transform = true := by
    decide +kernel
  have unnamed : pair.named enrolled.heap = [] := by decide +kernel
  have rules : (enrolled.heap.get (⟨1⟩ : Ref .plugin)).rules.values =
      [⟨.str "path", { patterns := ["moved"], compare := .host "equal" }⟩] := by decide +kernel
  have compared : (enrolled.heap.get pair.draft).compared (.str "path") = .str "kept" := by
    decide +kernel
  -- The second plugin is tried in any case, and before anything else its pattern.
  obtain ⟨l, _, within, chooses⟩ := selects.each (b := ⟨1⟩) (List.mem_cons_of_mem _ List.mem_cons_self)
  simp only [Chooses, handles, Takes, unnamed, rules, if_true, List.cons_ne_nil, if_false] at chooses
  obtain ⟨m, _, inside, matched⟩ := chooses.first
  obtain ⟨n, _, first, judged⟩ := matched.first
  rw [compared] at judged
  cases judged with
  | glob own => cases own
  | asked _ request => exact ⟨_, within (inside (first List.mem_cons_self)), request⟩

/-- With such a function, the draft as it is before does not decide who runs. -/
theorem selects_by_moved_path : ∃ calls o v, transforming.Unfolds enrolled calls o v ∧
    (∀ x ∈ calls, pair.Filed x.before x.after) ∧
    calls.map Exchange.request = [.call (.invoke (.host "equal") [.str "kept", .str "kept"]),
      .call (.invoke (.host "equal") [.str "moved", .str "moved"]),
      .call (.invoke (.host "first") [.obj .draft ⟨0⟩, .none]),
      .call (.invoke (.host "second") [.obj .draft ⟨0⟩, .none])] ∧
    ¬ ∃ asked ran ps, calls = asked ++ ran ∧ pair.Selects enrolled.heap .transform asked ps := by
  have requests : (transforming.traced moving enrolled).1.map Exchange.request =
      [.call (.invoke (.host "equal") [.str "kept", .str "kept"]),
        .call (.invoke (.host "equal") [.str "moved", .str "moved"]),
        .call (.invoke (.host "first") [.obj .draft ⟨0⟩, .none]),
        .call (.invoke (.host "second") [.obj .draft ⟨0⟩, .none])] := by decide +kernel
  refine ⟨_, _, _, unfolds_traced moving transforming enrolled, filed_moving, requests, ?_⟩
  rintro ⟨asked, ran, ps, split, selects⟩
  obtain ⟨x, mem, is⟩ := asked_of_selects selects
  have asks := List.mem_map_of_mem (f := Exchange.request) (split ▸ List.mem_append_left ran mem)
  rw [requests, is] at asks
  revert asks
  decide

end Roll
end AsyncImport
