import AsyncImport.Proofs.Subscriptions
import AsyncImport.Proofs.Transcripts
import Mathlib.Data.List.Pairwise

/-!
# Emission

Whom an event reaches, in which order, and what comes of it. The subscribers are settled when the event
is emitted; what they do to the bus meanwhile is for later events. `emit_serves` puts it together with
the history of the bus.
-/

namespace AsyncImport

def Exchange.Ordinary (x : Exchange) : Prop :=
  ∀ e, x.outcome = .error e → (x.after.heap.get e).ordinary

namespace Bus

open Edit Routine

/-! ## Order -/

namespace Entry

def notAfter (e f : Entry) : Bool :=
  f.priority < e.priority || (e.priority = f.priority && e.number ≤ f.number)

theorem notAfter_trans (e f g : Entry) (first : e.notAfter f) (next : f.notAfter g) :
    e.notAfter g := by
  simp only [notAfter, Bool.or_eq_true, Bool.and_eq_true, decide_eq_true_eq] at *
  omega

theorem notAfter_total (e f : Entry) : e.notAfter f || f.notAfter e := by
  simp only [notAfter, Bool.or_eq_true, Bool.and_eq_true, decide_eq_true_eq]
  omega

theorem before_of_notAfter {e f : Entry} (le : e.notAfter f) (ne : e.number ≠ f.number) :
    e.Before f := by
  simp only [notAfter, Before, Bool.or_eq_true, Bool.and_eq_true, decide_eq_true_eq] at *
  omega

def request (e : Entry) (id event : Value) : Request :=
  .call (.invoke e.callback (e.arguments id event))

end Entry

theorem lt_int (i j : Int) : (Priority.int i).lt (.int j) = decide (i < j) := by
  simp [Priority.lt, Priority.tier, Priority.fraction]

namespace Books

variable {bus : Bus} {n : Nat} {ps : List (Entry × Subscription)} {p q : Entry × Subscription}

def Along (p q : Entry × Subscription) : Prop :=
  p.2.order < q.2.order ∧ p.1.number < q.1.number ∨ q.2.order < p.2.order ∧ q.1.number < p.1.number

instance : Std.Symm Along := ⟨fun _ _ => Or.symm⟩

theorem order_iff (books : Books bus n ps) (hp : p ∈ ps) (hq : q ∈ ps) :
    p.2.order ≤ q.2.order ↔ p.1.number ≤ q.1.number := by
  have along : ps.Pairwise Along := books.rising.imp Or.inl
  by_cases same : p = q
  · simp [same]
  · have := along.forall hp hq same
    unfold Along at this
    omega

theorem notAfter_eq (books : Books bus n ps) (hp : p ∈ ps) (hq : q ∈ ps) :
    p.1.notAfter q.1 = p.2.notAfter q.2 := by
  simp only [Subscription.notAfter, (books.stands p hp).priority, (books.stands q hq).priority,
    lt_int, Entry.notAfter]
  have := books.order_iff hp hq
  grind

def found (ps : List (Entry × Subscription)) (k : Key) : List (Entry × Subscription) :=
  (ps.filter fun p => p.1.topic = .id k) ++
    ps.filter fun p => p.1.topic.covers k && !decide (p.1.topic = .id k)

theorem found_perm (ps : List (Entry × Subscription)) (k : Key) :
    (found ps k).Perm (ps.filter fun p => p.1.topic.covers k) := by
  have exact : (ps.filter fun p => p.1.topic = .id k) =
      (ps.filter fun p => p.1.topic.covers k).filter fun p => p.1.topic = .id k := by
    rw [List.filter_filter]
    apply List.filter_congr
    rintro ⟨⟨_ | _, f, i, m⟩, t⟩ _ <;> simp [Topic.covers]
  have others : (ps.filter fun p => p.1.topic.covers k && !decide (p.1.topic = .id k)) =
      (ps.filter fun p => p.1.topic.covers k).filter fun p => !decide (p.1.topic = .id k) := by
    rw [List.filter_filter]
    simp [Bool.and_comm]
  rw [found, exact, others]
  exact List.filter_append_perm _ _

theorem mem_of_found {k : Key} (mem : p ∈ found ps k) : p ∈ ps :=
  List.mem_of_mem_filter ((found_perm ps k).mem_iff.mp mem)

theorem reached_eq (books : Books bus n ps) (k : Key) :
    bus.reached k = (found ps k).map Prod.snd := by
  unfold found reached
  rw [List.map_append, ← books.routes k]
  split
  · next s =>
    rw [books.patterns, List.filter_filterMap, List.map_filterMap,
      ← List.filterMap_eq_map (f := Prod.snd), List.filterMap_filter]
    refine congrArg (_ ++ ·) (List.filterMap_congr ?_)
    rintro ⟨⟨_ | _, f, i, m⟩, t⟩ _ <;> simp [Topic.pattern?, Topic.covers, Option.filter]
  · next k other =>
    rw [List.filter_eq_nil_iff.mpr, List.map_nil, List.append_nil]
    rintro ⟨⟨_ | _, f, i, m⟩, t⟩ _
    · simp [Topic.covers, eq_comm]
    · simp [Topic.covers]

theorem select_eq (books : Books bus n ps) (k : Key) : ∃ qs : List (Entry × Subscription),
    qs.map Prod.snd = bus.select k ∧ qs.Perm (ps.filter fun p => p.1.topic.covers k) ∧
      qs.Pairwise fun p q => p.1.Before q.1 := by
  let qs := (found ps k).mergeSort fun p q => p.1.notAfter q.1
  have same : qs.Perm (ps.filter fun p => p.1.topic.covers k) :=
    (List.mergeSort_perm _ _).trans (found_perm ps k)
  have sorted : qs.Pairwise fun p q => p.1.notAfter q.1 :=
    List.pairwise_mergeSort (fun p q r => Entry.notAfter_trans p.1 q.1 r.1)
      (fun p q => Entry.notAfter_total p.1 q.1) (found ps k)
  have rising : (ps.filter fun p => p.1.topic.covers k).Pairwise fun p q =>
      p.1.number ≠ q.1.number :=
    (books.rising.filter _).imp fun later => Nat.ne_of_lt later.2
  have apart : qs.Pairwise fun p q => p.1.number ≠ q.1.number :=
    rising.perm same.symm fun ne => ne.symm
  refine ⟨qs, ?_, same, (sorted.and apart).imp fun h => Entry.before_of_notAfter h.1 h.2⟩
  rw [select, books.reached_eq]
  exact List.map_mergeSort fun p hp q hq => books.notAfter_eq (mem_of_found hp) (mem_of_found hq)

theorem sortable (books : Books bus n ps) (k : Key) : bus.sortable k := by
  rw [Bus.sortable, books.reached_eq, List.all_eq_true]
  intro s mem
  obtain ⟨p, found, rfl⟩ := List.mem_map.mp mem
  rw [(books.stands p (mem_of_found found)).priority]
  rfl

theorem patterns_nil (books : Books bus n ps)
    (plain : ∀ e ∈ ps.map Prod.fst, e.topic.pattern? = none) : bus.patterns = [] := by
  rw [books.patterns, List.filterMap_eq_nil_iff]
  intro p mem
  rw [plain _ (List.mem_map_of_mem mem)]
  rfl

theorem patterns_ne_nil (books : Books bus n ps) {e : Entry} (mem : e ∈ ps.map Prod.fst)
    (pattern : e.topic.pattern?.isSome) : bus.patterns ≠ [] := by
  obtain ⟨p, known, rfl⟩ := List.mem_map.mp mem
  obtain ⟨q, is⟩ := Option.isSome_iff_exists.mp pattern
  rw [books.patterns]
  exact List.ne_nil_of_mem (List.mem_filterMap.mpr ⟨p, known, by rw [is]; rfl⟩)

theorem run_route {b : Ref .bus} {w : World} (books : Books (w.heap.get b) n ps) {id : Value}
    {k : Key} (known : w.heap.key? id = some k)
    (plain : id.str?.isSome ∨ ∀ e ∈ ps.map Prod.fst, e.topic.pattern? = none) :
    (route b id).run w = (.ok ((w.heap.get b).select k), w) := by
  have told : (w.heap.get b).patterns = [] ∨ id.str?.isSome := by
    rcases plain with text | plain
    · exact .inr text
    · exact .inl (books.patterns_nil plain)
  simp [route, key, Edit.run_bind, known, told, books.sortable k]

theorem refuse_route {b : Ref .bus} {w : World} (books : Books (w.heap.get b) n ps) {id : Value}
    (refused : w.heap.key? id = none ∨
      id.str? = none ∧ ∃ e ∈ ps.map Prod.fst, e.topic.pattern?.isSome) :
    (route b id).run w = (.error .typeMismatch, w) := by
  cases known : w.heap.key? id with
  | none =>
    simp [route, key, Edit.run_bind, known]
    rfl
  | some k =>
    obtain ⟨text, e, mem, pattern⟩ := refused.resolve_left (by simp [known])
    simp [route, key, Edit.run_bind, known, books.patterns_ne_nil mem pattern, text]
    rfl

end Books

/-! ## Delivery -/

/-- What comes of asking subscribers one after the other. Whoever raises an ordinary fault is passed
over; any other fault ends it at once. -/
inductive Ending (asked : List Request) : List Exchange → Except (Ref .failure) Nat → Prop
  | all {calls : List Exchange} (each : calls.map Exchange.request = asked)
      (ordinary : ∀ x ∈ calls, x.Ordinary) :
      Ending asked calls (.ok (calls.countP fun x => x.outcome.isOk))
  | cut (before : List Exchange) {x : Exchange} {e : Ref .failure}
      (first : (before ++ [x]).map Exchange.request <+: asked) (ordinary : ∀ y ∈ before, y.Ordinary)
      (raised : x.outcome = .error e) (urgent : ¬ (x.after.heap.get e).ordinary) :
      Ending asked (before ++ [x]) (.error e)

def asking (id event : Value) (s : Subscription) : Request :=
  .call (.invoke s.callback (if s.withId then [id, event] else [event]))

variable {b : Ref .bus} {w v : World} {calls : List Exchange}

theorem unfolds_deliver {id event : Value} {s : Subscription} {o : Except (Ref .failure) Bool}
    (unfolds : (deliver id event s).Unfolds w calls o v) :
    ∃ x, calls = [x] ∧ x.request = asking id event s ∧ (x.Ordinary ∧ o = .ok x.outcome.isOk ∨
      ∃ e, x.outcome = .error e ∧ ¬ (x.after.heap.get e).ordinary ∧ o = .error e) := by
  obtain ⟨l, m, p, u, rfl, called, next⟩ := unfolds_andThen.mp unfolds
  rcases unfolds_bind.mp called with ⟨x, l₁, l₂, t, rfl, performed, ends⟩ | ⟨e, rfl, performed⟩
  · obtain rfl := unfolds_perform.mp performed
    obtain ⟨rfl, rfl, rfl⟩ := unfolds_done.mp ends
    obtain ⟨rfl, rfl, rfl⟩ := unfolds_done.mp next
    exact ⟨_, rfl, rfl, .inl ⟨by simp [Exchange.Ordinary], rfl⟩⟩
  · obtain rfl := unfolds_perform.mp performed
    have next := unfolds_read.mp next
    by_cases seen : (u.heap.get e).ordinary
    · -- what it comes to is logged, and the next subscriber is called
      rw [if_pos seen] at next
      let line := log .error "events.subscriber_failed" [("event_id", id)]
      have logged : line.run u = (.ok (), (line.run u).2) := rfl
      obtain ⟨rfl, rfl, rfl⟩ :=
        unfolds_done.mp ((unfolds_doing (f := fun _ => done false) logged).mp next)
      refine ⟨_, rfl, rfl, .inl ⟨?_, rfl⟩⟩
      rintro _ ⟨⟩
      exact seen
    · rw [if_neg seen] at next
      obtain ⟨rfl, rfl, rfl⟩ := unfolds_fail.mp next
      exact ⟨_, rfl, rfl, .inr ⟨e, rfl, seen, rfl⟩⟩

/-- The deliveries end as they should, and each answer is noted. -/
theorem ending_deliveries {id event : Value} {ss : List Subscription}
    {o : Except (Ref .failure) (List Bool)}
    (unfolds : (ss.mapM (deliver id event)).Unfolds w calls o v) :
    Ending (ss.map (asking id event)) calls (o.map fun ds => (ds.filter (· = true)).length) := by
  induction ss generalizing w calls o with
  | nil =>
    obtain ⟨rfl, rfl, rfl⟩ := unfolds_done.mp unfolds
    exact .all rfl (by simp)
  | cons s ss ih =>
    rw [List.mapM_cons] at unfolds
    rcases unfolds_bind.mp unfolds with ⟨d, l₁, l₂, u, rfl, first, rest⟩ | ⟨e, rfl, first⟩
    · obtain ⟨x, rfl, asked, ⟨ordinary, ⟨⟩⟩ | ⟨_, _, _, ⟨⟩⟩⟩ := unfolds_deliver first
      have later : ∃ p, (ss.mapM (deliver id event)).Unfolds u l₂ p v ∧
          o = p.map (x.outcome.isOk :: ·) := by
        rcases unfolds_bind.mp rest with ⟨ds, l₃, l₄, t, rfl, later, ends⟩ | ⟨e, rfl, later⟩
        · obtain ⟨rfl, rfl, rfl⟩ := unfolds_done.mp ends
          exact ⟨_, by simpa using later, rfl⟩
        · exact ⟨_, later, rfl⟩
      obtain ⟨p, later, rfl⟩ := later
      have ends := ih later
      rcases p with f | ds
      · cases ends with
        | @cut before y _ prior fine raised urgent =>
          refine .cut (x :: before) ?_ (List.forall_mem_cons.mpr ⟨ordinary, fine⟩) raised urgent
          simpa [asked] using prior
      · generalize counted : (Except.ok ds : Except (Ref .failure) (List Bool)).map
          (fun ds => (ds.filter (· = true)).length) = c at ends
        cases ends with
        | all each fine =>
          have counted : (ds.filter (· = true)).length = l₂.countP fun x => x.outcome.isOk :=
            Except.ok.inj counted
          have more : ((x.outcome.isOk :: ds).filter (· = true)).length =
              (x :: l₂).countP fun x => x.outcome.isOk := by
            rw [List.countP_cons, ← counted]
            cases x.outcome.isOk <;> simp
          show Ending _ (x :: l₂) (.ok ((x.outcome.isOk :: ds).filter (· = true)).length)
          rw [more]
          exact .all (by simp [asked, each]) (List.forall_mem_cons.mpr ⟨ordinary, fine⟩)
        | cut => cases counted
    · obtain ⟨x, rfl, asked, ⟨_, ⟨⟩⟩ | ⟨e, raised, urgent, ⟨⟩⟩⟩ := unfolds_deliver first
      exact .cut [] (by simp [asked]) (by simp) raised urgent

theorem Entry.Stands.asking_eq {e : Entry} {s : Subscription} (stands : e.Stands s)
    (id event : Value) : asking id event s = e.request id event := by
  rw [asking, stands.callback, stands.withId, request, arguments]
  cases e.topic <;> rfl

/-- An event is handed to entries one after the other, and those that took it are counted. -/
def Serves (b : Ref .bus) (id event : Value) (w : World) (served : List Entry) : Prop :=
  (∀ answer, ∃ calls o v, (emit b id event).Unfolds w calls o v ∧ Answered answer calls) ∧
  ∀ calls o v, (emit b id event).Unfolds w calls o v →
    Ending (served.map (·.request id event)) calls o

theorem serves_select {n : Nat} {ps qs : List (Entry × Subscription)} {id event : Value} {k : Key}
    (books : Books (w.heap.get b) n ps) (known : w.heap.key? id = some k)
    (plain : id.str?.isSome ∨ ∀ e ∈ ps.map Prod.fst, e.topic.pattern? = none)
    (selected : qs.map Prod.snd = (w.heap.get b).select k) (stand : ∀ q ∈ qs, q ∈ ps) :
    Serves b id event w (qs.map Prod.fst) := by
  refine ⟨fun answer => exists_unfolds _ answer w, fun calls o v unfolds => ?_⟩
  let u : World := { w with emitted := w.emitted ++ [⟨b, id, event⟩] }
  have noted : journal ⟨b, id, event⟩ w = (.ok (), u) := rfl
  have routed : (route b id).run u = (.ok ((w.heap.get b).select k), u) :=
    Books.run_route (w := u) books known plain
  have asked : (qs.map Prod.fst).map (·.request id event) =
      ((w.heap.get b).select k).map (asking id event) := by
    rw [← selected, List.map_map, List.map_map]
    exact List.map_congr_left fun q mem => ((books.stands q (stand q mem)).asking_eq id event).symm
  have handed := (unfolds_doing (f := fun _ => handOut b id event) noted).mp unfolds
  have handed := (unfolds_doing (f := fun ss : List Subscription =>
    (ss.mapM (deliver id event)).bind fun ds => done (ds.filter (· = true)).length) routed).mp handed
  rw [asked]
  rcases unfolds_bind.mp handed with ⟨ds, l₁, l₂, t, rfl, delivered, ends⟩ | ⟨e, rfl, delivered⟩
  · obtain ⟨rfl, rfl, rfl⟩ := unfolds_done.mp ends
    simpa [Except.map] using ending_deliveries delivered
  · exact ending_deliveries delivered

theorem unfolds_refused {n : Nat} {ps : List (Entry × Subscription)} {id event : Value}
    {o : Except (Ref .failure) Nat} (books : Books (w.heap.get b) n ps)
    (refused : w.heap.key? id = none ∨ id.str? = none ∧ ∃ e ∈ ps.map Prod.fst, e.topic.pattern?.isSome)
    (unfolds : (emit b id event).Unfolds w calls o v) :
    calls = [] ∧ ∃ e, o = .error e ∧ v.heap.get e = .typeMismatch := by
  let u : World := { w with emitted := w.emitted ++ [⟨b, id, event⟩] }
  have noted : journal ⟨b, id, event⟩ w = (.ok (), u) := rfl
  have handed := (unfolds_doing (f := fun _ => handOut b id event) noted).mp unfolds
  have failing : (route b id).run u = (.error .typeMismatch, u) :=
    Books.refuse_route (w := u) books refused
  rcases unfolds_bind.mp handed with ⟨_, _, _, _, _, routed, _⟩ | ⟨e, rfl, routed⟩
  · cases ((unfolds_edit.mp routed).2.symm.trans (Edit.after_error failing))
  · obtain ⟨rfl, ends⟩ := unfolds_edit.mp routed
    cases ends.symm.trans (Edit.after_error failing)
    exact ⟨rfl, _, rfl, (World.get_alloc ..).trans (if_pos rfl)⟩

theorem exists_served {n : Nat} {ps : List (Entry × Subscription)} {id : Value} {k : Key}
    (event : Value) (books : Books (w.heap.get b) n ps) (known : w.heap.key? id = some k)
    (plain : id.str?.isSome ∨ ∀ e ∈ ps.map Prod.fst, e.topic.pattern? = none) :
    ∃ served : List Entry, served.Perm ((ps.map Prod.fst).filter fun e => e.topic.covers k) ∧
      served.Pairwise Entry.Before ∧ Serves b id event w served := by
  obtain ⟨qs, selected, same, sorted⟩ := books.select_eq k
  refine ⟨qs.map Prod.fst, ?_, List.pairwise_map.mpr sorted,
    serves_select books known plain selected fun q mem =>
      List.mem_of_mem_filter (same.mem_iff.mp mem)⟩
  rw [List.filter_map]
  exact same.map Prod.fst

theorem emit_serves {n : Nat} {l : List Entry} (recorded : Recorded b n l w) :
    (∀ f, ((Call.unsubscribe f).run b w).1 = .ok (.int (l.countP fun e => e.callback = f))) ∧
    (∀ id event k, w.heap.key? id = some k →
      (id.str?.isSome ∨ ∀ e ∈ l, e.topic.pattern? = none) →
      ∃ served : List Entry, served.Perm (l.filter fun e => e.topic.covers k) ∧
        served.Pairwise Entry.Before ∧ Serves b id event w served) ∧
    ∀ id event, (w.heap.key? id = none ∨ id.str? = none ∧ ∃ e ∈ l, e.topic.pattern?.isSome) →
      ∀ calls o v, (emit b id event).Unfolds w calls o v →
        calls = [] ∧ ∃ e, o = .error e ∧ v.heap.get e = .typeMismatch := by
  obtain ⟨live, ps, rfl, books⟩ := agrees_of_recorded recorded
  refine ⟨fun f => ?_, fun id event k known plain => exists_served event books known plain,
    fun id event refused calls o v unfolds => unfolds_refused books refused unfolds⟩
  rw [← books.count f]
  rfl

def reporter : Entry := ⟨.id (Key.text "loader.error"), .host "report", 0, 0⟩

def watcher : Entry := ⟨.pattern "loader.*", .host "watch", 5, 1⟩

def bareBoard : World where
  heap := { buses := #[{}] }
  functions := { entries := [("watch", { parameters := some ["src", "event"] })] }

/-- A bus with a subscriber to one event id, and then a more urgent one to all ids like it. -/
def board : World :=
  let reported :=
    ((Call.subscribe (.str "loader.error") (.host "report") (.int 0)).run ⟨0⟩ bareBoard).2
  ((Call.subscribePattern (.str "loader.*") (.host "watch") (.int 5)).run ⟨0⟩ reported).2

theorem recorded_board : Recorded ⟨0⟩ 2 [reporter, watcher] board :=
  have made : Recorded ⟨0⟩ 0 [] bareBoard := .made (by decide) rfl
  (made.called (.subscribe (.str "loader.error") (.host "report") (.int 0)) rfl).called
    (.subscribePattern (.str "loader.*") (.host "watch") (.int 5)) rfl

theorem served_board {served : List Entry}
    (same : served.Perm ([reporter, watcher].filter fun e => e.topic.covers (Key.text "loader.error")))
    (sorted : served.Pairwise Entry.Before) : served = [watcher, reporter] := by
  apply (same.trans (by decide)).eq_of_pairwise _ sorted
  · simp [Entry.Before, watcher, reporter]
  · intro e f _ _
    simp only [Entry.Before]
    omega

theorem emit_serves_urgent_first :
    ((Call.unsubscribe (.host "watch")).run ⟨0⟩ board).1 = .ok (.int 1) ∧
      Serves ⟨0⟩ (.str "loader.error") .none board [watcher, reporter] ∧
      ∀ calls o v, (emit ⟨0⟩ (.int 5) .none).Unfolds board calls o v → calls = [] := by
  obtain ⟨removed, reached, refused⟩ := emit_serves recorded_board
  obtain ⟨served, same, sorted, serves⟩ :=
    reached (.str "loader.error") .none (Key.text "loader.error") rfl (.inl rfl)
  refine ⟨removed (.host "watch"), served_board same sorted ▸ serves, fun calls o v unfolds => ?_⟩
  exact (refused (.int 5) .none (.inr ⟨rfl, watcher, by simp, rfl⟩) calls o v unfolds).1

def cancelling (_ : List Exchange) (_ : Request) (w : World) : Outcome × World :=
  (.error (w.heap.fresh .failure), w.alloc .failure .cancelled)

def fifth : Entry := ⟨.id [.int 5], .host "report", 0, 1⟩

/-- A bus with a subscriber to all ids, and then one to a number. -/
def numbered : World :=
  let watched := ((Call.subscribePattern (.str "*") (.host "watch") (.int 0)).run ⟨0⟩ bareBoard).2
  ((Call.subscribe (.int 5) (.host "report") (.int 0)).run ⟨0⟩ watched).2

theorem recorded_numbered : Recorded ⟨0⟩ 2 [⟨.pattern "*", .host "watch", 0, 0⟩, fifth] numbered :=
  have made : Recorded ⟨0⟩ 0 [] bareBoard := .made (by decide) rfl
  (made.called (.subscribePattern (.str "*") (.host "watch") (.int 0)) rfl).called
    (.subscribe (.int 5) (.host "report") (.int 0)) rfl

/-- A subscriber is left out when one before it raises what is no ordinary fault, and when the id
cannot be matched with the pattern of another. -/
theorem emit_stopped :
    (Recorded ⟨0⟩ 2 [reporter, watcher] board ∧
      ∃ x e v, (emit ⟨0⟩ (.str "loader.error") .none).Unfolds board [x] (.error e) v ∧
        x.request = watcher.request (.str "loader.error") .none) ∧
    Recorded ⟨0⟩ 2 [⟨.pattern "*", .host "watch", 0, 0⟩, fifth] numbered ∧
      ∀ calls o v, (emit ⟨0⟩ (.int 5) .none).Unfolds numbered calls o v →
        calls = [] ∧ o.isOk = false := by
  refine ⟨⟨recorded_board, ?_⟩, recorded_numbered, ?_⟩
  · obtain ⟨-, ps, same, books⟩ := agrees_of_recorded recorded_board
    obtain ⟨served, among, sorted, exist, ends⟩ := exists_served .none books
      (show board.heap.key? (.str "loader.error") = some _ from rfl) (.inl rfl)
    obtain rfl := served_board (same ▸ among) sorted
    obtain ⟨calls, o, v, unfolds, answered⟩ := exist cancelling
    have strange {x : Exchange} {later : List Exchange} (is : calls = x :: later) : ¬ x.Ordinary := by
      intro ordinary
      obtain ⟨failed, after⟩ := Prod.mk.inj (answered [] x later is)
      have seen := ordinary _ failed
      rw [after, (World.get_alloc ..).trans (if_pos rfl)] at seen
      cases seen
    cases ends calls o v unfolds with
    | all each ordinary =>
      obtain ⟨x, later, rfl, -⟩ := List.map_eq_cons_iff.mp each
      exact absurd (ordinary x List.mem_cons_self) (strange rfl)
    | @cut before x e first ordinary raised =>
      cases before with
      | cons y before => exact absurd (ordinary y List.mem_cons_self) (strange rfl)
      | nil => exact ⟨x, e, v, unfolds, by simpa using first⟩
  · intro calls o v unfolds
    obtain ⟨-, ps, same, books⟩ := agrees_of_recorded recorded_numbered
    obtain ⟨none, e, rfl, -⟩ := unfolds_refused books
      (.inr ⟨rfl, _, same ▸ List.mem_cons_self, rfl⟩) unfolds
    exact ⟨none, rfl⟩

end Bus
end AsyncImport
