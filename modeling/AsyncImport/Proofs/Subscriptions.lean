import AsyncImport.Event.Emit
import AsyncImport.Proofs.Edits
import Mathlib.Data.List.Basic

/-!
# The subscriptions of a bus

A bus keeps the subscriptions to single event ids apart from those to patterns, and puts them in order
only when an event is emitted. What it stands for is one list of entries in order of registration:
`Recorded` says what a sequence of calls makes of that list, whatever else happens between them, and
`agrees_of_recorded` that the bus agrees with it after every sequence of calls.
-/

namespace AsyncImport

namespace Assoc

variable {κ ν α : Type} [DecidableEq κ]

theorem get?_mapValues {μ : Type} (f : ν → μ) (m : Assoc κ ν) (k : κ) :
    (m.mapValues f).get? k = (m.get? k).map f := by
  unfold mapValues get?
  induction m.entries with
  | nil => rfl
  | cons e es ih =>
    rw [List.map_cons, lookup_cons, lookup_cons, ih]
    split <;> rfl

theorem flatten_insertEntry (k : κ) (a : α) (es : List (κ × List α)) :
    ((insertEntry k ((es.lookup k).getD [] ++ [a]) es).map Prod.snd).flatten.Perm
      ((es.map Prod.snd).flatten ++ [a]) := by
  induction es with
  | nil => simp [insertEntry]
  | cons e es ih =>
    rw [lookup_cons]
    by_cases same : e.1 = k
    · rw [if_pos same.symm, insertEntry, if_pos same]
      simpa using List.Perm.append_left e.2 (List.perm_append_singleton a _).symm
    · rw [if_neg (Ne.symm same), insertEntry, if_neg same]
      simpa using List.Perm.append_left e.2 ih

theorem flatten_values_insert (m : Assoc κ (List α)) (k : κ) (a : α) :
    (m.insert k ((m.get? k).getD [] ++ [a])).values.flatten.Perm (m.values.flatten ++ [a]) :=
  flatten_insertEntry k a m.entries

omit [DecidableEq κ] in
theorem flatten_values_filter (m : Assoc κ (List α)) (p : α → Bool) :
    (m.mapValues (List.filter p)).values.flatten = m.values.flatten.filter p := by
  unfold mapValues values
  simp [List.filter_flatten, Function.comp_def]

end Assoc

namespace Bus

open Edit

inductive Topic where
  | id (k : Key)
  | pattern (p : String)
  deriving DecidableEq

namespace Topic

def covers : Topic → Key → Bool
  | .id k, l => k = l
  | .pattern p, [.str s] => Event.Pattern.admits p s
  | .pattern _, _ => false

def pattern? : Topic → Option String
  | .id _ => none
  | .pattern p => some p

end Topic

/-- A live subscription, with the number of calls on the bus before it. -/
structure Entry where
  topic : Topic
  callback : Value
  priority : Int
  number : Nat
  deriving DecidableEq

namespace Entry

def arguments (e : Entry) (id event : Value) : List Value :=
  match e.topic with
  | .id _ => [event]
  | .pattern _ => [id, event]

/-- By falling priority, and among equals in order of registration. -/
def Before (e f : Entry) : Prop :=
  f.priority < e.priority ∨ e.priority = f.priority ∧ e.number < f.number

end Entry

/-! ## Calls on a bus -/

inductive Call where
  | subscribe (id callback priority : Value)
  /-- A subscriber is handed to what `on` gave for an id and a priority. -/
  | decorate (d : Ref .decorator) (callback : Value)
  | subscribePattern (pattern callback priority : Value)
  | unsubscribe (callback : Value)

def whole? (priority : Value) : Option Int :=
  match Priority.ofValue? priority with
  | some (.int i) => some i
  | _ => none

namespace Call

def run (b : Ref .bus) : Call → Edit Value
  | .subscribe id f p => subscribeTo b id f p
  | .decorate d f => do
    let c ← read d
    subscribeTo c.bus c.id f c.priority
  | .subscribePattern q f p => subscribeToPattern b q f p
  | .unsubscribe f => do return .int (← drop b f)

def wanted? (h : Heap) (number : Nat) : Call → Option Entry
  | .subscribe id f p => do return ⟨.id (← h.key? id), f, ← whole? p, number⟩
  | .decorate d f => do
    return ⟨.id (← h.key? (h.get d).id), f, ← whole? (h.get d).priority, number⟩
  | .subscribePattern (.str q) f p => do return ⟨.pattern q, f, ← whole? p, number⟩
  | _ => none

def Sound (b : Ref .bus) (h : Heap) : Call → Prop
  | .subscribe _ _ p | .subscribePattern _ _ p => (whole? p).isSome
  | .decorate d _ => (h.get d).bus = b ∧ (whole? (h.get d).priority).isSome
  | .unsubscribe _ => True

def record (h : Heap) (number : Nat) (accepted : Bool) (l : List Entry) : Call → List Entry
  | .unsubscribe f => l.filter fun e => e.callback ≠ f
  | c => if accepted then l ++ (c.wanted? h number).toList else l

end Call

/-- The live subscriptions of a bus after a number of calls on it since it was made. Between the calls
anything may happen that leaves the bus as it is. -/
inductive Recorded (b : Ref .bus) : Nat → List Entry → World → Prop
  | made {w : World} (live : w.heap.Live b) (new : w.heap.get b = {}) : Recorded b 0 [] w
  | meanwhile {n : Nat} {l : List Entry} {w v : World} (before : Recorded b n l w)
      (live : v.heap.Live b) (same : v.heap.get b = w.heap.get b) : Recorded b n l v
  | called {n : Nat} {l : List Entry} {w : World} (before : Recorded b n l w) (c : Call)
      (sound : c.Sound b w.heap) :
      Recorded b (n + 1) (c.record w.heap n (c.run b w).1.isOk l) (c.run b w).2

/-! ## Bus and entries -/

structure Entry.Stands (e : Entry) (s : Subscription) : Prop where
  callback : s.callback = e.callback
  priority : Priority.ofValue? s.priority = some (.int e.priority)
  withId : s.withId = e.topic.pattern?.isSome

structure Books (bus : Bus) (n : Nat) (ps : List (Entry × Subscription)) : Prop where
  stands : ∀ p ∈ ps, p.1.Stands p.2
  routes : ∀ k, (bus.routes.get? k).getD [] = (ps.filter fun p => p.1.topic = .id k).map Prod.snd
  all : bus.routes.values.flatten.Perm ((ps.filter fun p => p.1.topic.pattern? = none).map Prod.snd)
  patterns : bus.patterns = ps.filterMap fun p => p.1.topic.pattern?.map (·, p.2)
  rising : ps.Pairwise fun p q => p.2.order < q.2.order ∧ p.1.number < q.1.number
  early : ∀ p ∈ ps, p.2.order < bus.counter ∧ p.1.number < n

namespace Books

variable {bus : Bus} {n : Nat} {ps : List (Entry × Subscription)}

theorem new : Books {} 0 [] where
  stands := by simp
  routes := by simp
  all := by simp [Assoc.values]
  patterns := rfl
  rising := .nil
  early := by simp

theorem early_mono {counter : Nat} (books : Books bus n ps) (more : bus.counter ≤ counter) :
    ∀ p ∈ ps, p.2.order < counter ∧ p.1.number < n + 1 := fun p mem =>
  ⟨Nat.lt_of_lt_of_le (books.early p mem).1 more, Nat.lt_succ_of_lt (books.early p mem).2⟩

theorem later (books : Books bus n ps) : Books bus (n + 1) ps :=
  { books with early := books.early_mono (Nat.le_refl _) }

theorem skip (books : Books bus n ps) : Books bus.skip (n + 1) ps :=
  { books with early := books.early_mono (Nat.le_succ _) }

theorem rising_snoc {e : Entry} {s : Subscription} (books : Books bus n ps)
    (order : s.order = bus.counter) (number : e.number = n) :
    (ps ++ [(e, s)]).Pairwise fun p q => p.2.order < q.2.order ∧ p.1.number < q.1.number := by
  refine List.pairwise_append.mpr ⟨books.rising, List.pairwise_singleton _ _, ?_⟩
  intro p mem q last
  obtain rfl := List.mem_singleton.mp last
  have early := books.early p mem
  exact ⟨order ▸ early.1, number ▸ early.2⟩

theorem early_snoc {e : Entry} {s : Subscription} (books : Books bus n ps)
    (order : s.order = bus.counter) (number : e.number = n) :
    ∀ p ∈ ps ++ [(e, s)], p.2.order < bus.counter + 1 ∧ p.1.number < n + 1 := by
  intro p mem
  rcases List.mem_append.mp mem with old | last
  · exact books.early_mono (Nat.le_succ _) p old
  · obtain rfl := List.mem_singleton.mp last
    exact ⟨order ▸ Nat.lt_succ_self _, number ▸ Nat.lt_succ_self _⟩

theorem stands_snoc {e : Entry} {s : Subscription} (books : Books bus n ps) (stands : e.Stands s) :
    ∀ p ∈ ps ++ [(e, s)], p.1.Stands p.2 := by
  intro p mem
  rcases List.mem_append.mp mem with old | last
  · exact books.stands p old
  · obtain rfl := List.mem_singleton.mp last
    exact stands

theorem subscribe {f p : Value} {i : Int} (books : Books bus n ps) (whole : whole? p = some i)
    (k : Key) : Books (bus.subscribe k f p) (n + 1)
      (ps ++ [(⟨.id k, f, i, n⟩, ⟨f, p, bus.counter, false⟩)]) where
  stands := books.stands_snoc ⟨rfl, by simp_all [whole?]; grind, rfl⟩
  routes l := by
    simp only [Bus.subscribe, Assoc.get?_insert, List.filter_append, List.map_append, ← books.routes]
    by_cases same : l = k
    · simp [same]
    · simp [same, Ne.symm same]
  all := by
    rw [List.filter_append, List.map_append]
    exact (bus.routes.flatten_values_insert k _).trans (books.all.append_right _)
  patterns := by
    rw [List.filterMap_append, ← books.patterns]
    simp [Bus.subscribe, Topic.pattern?]
  rising := books.rising_snoc rfl rfl
  early := books.early_snoc rfl rfl

theorem subscribePattern {f p : Value} {i : Int} (books : Books bus n ps)
    (whole : whole? p = some i) (q : String) : Books (bus.subscribePattern q f p) (n + 1)
      (ps ++ [(⟨.pattern q, f, i, n⟩, ⟨f, p, bus.counter, true⟩)]) where
  stands := books.stands_snoc ⟨rfl, by simp_all [whole?]; grind, rfl⟩
  routes l := by
    rw [List.filter_append, List.map_append, ← books.routes]
    simp [Bus.subscribePattern]
  all := by
    rw [List.filter_append, List.map_append]
    exact books.all.trans (by simp [Topic.pattern?])
  patterns := by
    rw [List.filterMap_append, ← books.patterns]
    simp [Bus.subscribePattern, Topic.pattern?]
  rising := books.rising_snoc rfl rfl
  early := books.early_snoc rfl rfl

theorem filter_snd (books : Books bus n ps) (f : Value) (p : Entry → Bool) :
    ((ps.filter fun q => p q.1).map Prod.snd).filter (fun s => s.callback ≠ f) =
      (((ps.filter fun q => q.1.callback ≠ f).filter fun q => p q.1).map Prod.snd) := by
  rw [List.filter_map, List.filter_filter, List.filter_filter]
  congr 1
  apply List.filter_congr
  intro q mem
  simp [(books.stands q mem).callback, Bool.and_comm]

theorem unsubscribe (books : Books bus n ps) (f : Value) :
    Books (bus.unsubscribe f) (n + 1) (ps.filter fun p => p.1.callback ≠ f) where
  stands p mem := books.stands p (List.mem_of_mem_filter mem)
  routes k := by
    rw [← books.filter_snd f fun e => e.topic = .id k, ← books.routes k, Bus.unsubscribe,
      Assoc.get?_mapValues]
    cases bus.routes.get? k <;> rfl
  all := by
    rw [← books.filter_snd f fun e => e.topic.pattern? = none, Bus.unsubscribe,
      Assoc.flatten_values_filter]
    exact books.all.filter _
  patterns := by
    rw [Bus.unsubscribe, books.patterns, List.filter_filterMap, List.filterMap_filter]
    apply List.filterMap_congr
    intro p mem
    rw [← (books.stands p mem).callback]
    cases p.1.topic.pattern? <;> simp [Option.filter]
  rising := books.rising.filter _
  early p mem := books.early_mono (Nat.le_refl _) p (List.mem_of_mem_filter mem)

theorem live_perm (books : Books bus n ps) : bus.live.Perm (ps.map Prod.snd) := by
  have patterns : bus.patterns.map Prod.snd =
      (ps.filter fun p => !decide (p.1.topic.pattern? = none)).map Prod.snd := by
    rw [books.patterns, List.map_filterMap, ← List.filterMap_eq_map, List.filterMap_filter]
    apply List.filterMap_congr
    intro p _
    cases p.1.topic.pattern? <;> simp
  calc bus.live.Perm _ := books.all.append_right _
    _ = ((ps.filter fun p => p.1.topic.pattern? = none) ++
        ps.filter fun p => !decide (p.1.topic.pattern? = none)).map Prod.snd := by
      rw [patterns, List.map_append]
    List.Perm _ _ := (List.filter_append_perm _ ps).map _

theorem count (books : Books bus n ps) (f : Value) :
    bus.count f = (ps.map Prod.fst).countP fun e => e.callback = f := by
  rw [Bus.count, ← List.countP_eq_length_filter, books.live_perm.countP_eq, List.countP_map,
    List.countP_map]
  apply List.countP_congr
  intro p mem
  simp [(books.stands p mem).callback]

end Books

/-! ## Calls and entries -/

variable {b : Ref .bus} {w : World}

theorem subscribeTo_cases (b : Ref .bus) (id f p : Value) (w : World) :
    (∃ k, w.heap.key? id = some k ∧
      subscribeTo b id f p w = (.ok f, w.set b ((w.heap.get b).subscribe k f p))) ∨
    ∃ e v, subscribeTo b id f p w = (.error e, v) ∧ (w.Near v ∨ v = w.set b (w.heap.get b).skip) := by
  unfold subscribeTo
  by_cases callable : f.callable
  · cases known : w.heap.key? id with
    | some k => exact .inl ⟨k, rfl, by simp [run_bind, run_map, callable, known]⟩
    | none => exact .inr ⟨_, _, by simp [run_bind, callable, known]; rfl, .inr rfl⟩
  · right
    have near := (shown f).near w
    rcases text : (shown f).run w with ⟨e | s, v⟩ <;> rw [text] at near
    · exact ⟨e, v, by simp [run_bind, callable, text], .inl near⟩
    · exact ⟨.subscriber s, v, by simp [run_bind, callable, text], .inl near⟩

theorem parameters_kept (f : Value) (w : World) : (parameters f w).2 = w := by
  unfold parameters
  split
  case h_1 n =>
    have looked : (get : Edit World) w = (.ok w, w) := rfl
    cases known : w.functions.get? n <;> simp [run_bind, looked, known]
  all_goals rfl

theorem subscribeToPattern_cases (b : Ref .bus) (q f p : Value) (w : World) :
    (∃ s, q = .str s ∧
      subscribeToPattern b q f p w = (.ok f, w.set b ((w.heap.get b).subscribePattern s f p))) ∨
    ∃ e v, subscribeToPattern b q f p w = (.error e, v) ∧ (w.Near v ∨ v = w.set b (w.heap.get b).skip) := by
  unfold subscribeToPattern
  have kept := parameters_kept f w
  rcases given : parameters f w with ⟨e | names, v⟩ 
  · obtain rfl : v = w := by simpa [given] using kept
    exact .inr ⟨e, v, by simp [run_bind, given], .inl (.refl v)⟩
  · obtain rfl : v = w := by simpa [given] using kept
    by_cases first : names.head? = some "src"
    · cases q with
      | str s => exact .inl ⟨s, rfl, by simp [run_bind, run_map, given, first]⟩
      | _ => exact .inr ⟨_, _, by simp [run_bind, given, first]; rfl, .inr rfl⟩
    · exact .inr ⟨_, _, by simp [run_bind, given, first]; rfl, .inl (.refl v)⟩

def Agrees (b : Ref .bus) (n : Nat) (l : List Entry) (w : World) : Prop :=
  w.heap.Live b ∧ ∃ ps, ps.map Prod.fst = l ∧ Books (w.heap.get b) n ps

namespace Agrees

variable {n : Nat} {l : List Entry}

theorem same {v : World} (agrees : Agrees b n l w) (live : v.heap.Live b)
    (same : v.heap.get b = w.heap.get b) : Agrees b n l v := by
  obtain ⟨-, ps, rfl, books⟩ := agrees
  exact ⟨live, ps, rfl, same ▸ books⟩

theorem set {c : Bus} {ps : List (Entry × Subscription)} (live : w.heap.Live b)
    (books : Books c n ps) : Agrees b n (ps.map Prod.fst) (w.set b c) := by
  refine ⟨World.live_set.mpr live, ps, rfl, ?_⟩
  rwa [World.get_set b b c live, if_pos rfl]

theorem refused {v : World} (agrees : Agrees b n l w)
    (what : w.Near v ∨ v = w.set b (w.heap.get b).skip) : Agrees b (n + 1) l v := by
  obtain ⟨live, ps, rfl, books⟩ := agrees
  rcases what with near | rfl
  · have table := near.table .bus rfl
    refine ⟨by rwa [Heap.Live, table], ps, rfl, ?_⟩
    rw [Heap.get, table]
    exact books.later
  · exact .set live books.skip

theorem subscribeTo (agrees : Agrees b n l w) (id f p : Value) (whole : (whole? p).isSome) :
    Agrees b (n + 1) ((Call.subscribe id f p).record w.heap n (Bus.subscribeTo b id f p w).1.isOk l)
      (Bus.subscribeTo b id f p w).2 := by
  obtain ⟨i, whole⟩ := Option.isSome_iff_exists.mp whole
  rcases subscribeTo_cases b id f p w with ⟨k, known, run⟩ | ⟨e, v, run, what⟩
  · obtain ⟨live, ps, rfl, books⟩ := agrees
    rw [run]
    have after := Agrees.set live (books.subscribe (f := f) whole k)
    simpa [Call.record, Call.wanted?, known, whole, Except.isOk, Except.toBool] using after
  · rw [run]
    exact agrees.refused what

theorem subscribeToPattern (agrees : Agrees b n l w) (q f p : Value) (whole : (whole? p).isSome) :
    Agrees b (n + 1)
      ((Call.subscribePattern q f p).record w.heap n (Bus.subscribeToPattern b q f p w).1.isOk l)
      (Bus.subscribeToPattern b q f p w).2 := by
  obtain ⟨i, whole⟩ := Option.isSome_iff_exists.mp whole
  rcases subscribeToPattern_cases b q f p w with ⟨s, rfl, run⟩ | ⟨e, v, run, what⟩
  · obtain ⟨live, ps, rfl, books⟩ := agrees
    rw [run]
    have after := Agrees.set live (books.subscribePattern (f := f) whole s)
    simpa [Call.record, Call.wanted?, whole, Except.isOk, Except.toBool] using after
  · rw [run]
    exact agrees.refused what

theorem drop (agrees : Agrees b n l w) (f : Value) :
    Agrees b (n + 1) (l.filter fun e => e.callback ≠ f) (Bus.drop b f w).2 := by
  obtain ⟨live, ps, rfl, books⟩ := agrees
  have after := Agrees.set live (books.unsubscribe f)
  rw [List.filter_map]
  exact after

theorem called (agrees : Agrees b n l w) (c : Call) (sound : c.Sound b w.heap) :
    Agrees b (n + 1) (c.record w.heap n (c.run b w).1.isOk l) (c.run b w).2 := by
  cases c with
  | subscribe id f p => exact agrees.subscribeTo id f p sound
  | decorate d f =>
    obtain ⟨rfl, whole⟩ := sound
    exact agrees.subscribeTo _ f _ whole
  | subscribePattern q f p => exact agrees.subscribeToPattern q f p sound
  | unsubscribe f => exact agrees.drop f

end Agrees

theorem agrees_of_recorded {n : Nat} {l : List Entry} (recorded : Recorded b n l w) :
    Agrees b n l w := by
  induction recorded with
  | made live new => exact ⟨live, [], rfl, new ▸ .new⟩
  | meanwhile _ live same ih => exact ih.same live same
  | called _ c sound ih => exact ih.called c sound

end Bus
end AsyncImport
