import AsyncImport.Loader.Events
import AsyncImport.Manager.Cache
import AsyncImport.Task.Schedule
import Mathlib.Logic.Relation
import Mathlib.Tactic.ByContra

/-!
# What lasts

Some things about an object never change once it is there: the name of a draft, the activity of a
task, the result of a future that is done. `World.Evolves` collects them; every moment of a run is
followed by moments that it evolves into.
-/

namespace AsyncImport

namespace Future

def activity? (c : Future) : Option Activity :=
  match c.origin with
  | .task a _ _ => some a
  | _ => none

def members? (c : Future) : Option (List (Ref .future)) :=
  match c.origin with
  | .group ms _ _ => some ms
  | _ => none

structure Follows (c d : Future) : Prop where
  status : c.status ≠ .waiting → d.status = c.status
  activity : d.activity? = c.activity?
  members : d.members? = c.members?

theorem Follows.refl (c : Future) : c.Follows c := ⟨fun _ => rfl, rfl, rfl⟩

theorem Follows.trans {b c d : Future} (first : b.Follows c) (next : c.Follows d) : b.Follows d where
  status done := by
    have kept := first.status done
    rw [next.status (by rwa [kept]), kept]
  activity := next.activity.trans first.activity
  members := next.members.trans first.members

end Future

def Cell.Follows : (k : Kind) → Cell k → Cell k → Prop
  | .draft, c, d => d.name = c.name
  | .module, c, d => d.name = c.name
  | .coroutine, c, d => d.activity = c.activity
  | .future, c, d => Future.Follows c d
  | .pipeline, c, d => d = c
  | .loader, c, d => ∃ waits, d = { c with waits := waits }
  | .manager, c, d => ∃ modules, d = { c with modules := modules } ∧
      ∀ s, c.modules.get? s ≠ none → modules.get? s ≠ none
  | _, _, _ => True

def Cell.Rests : (k : Kind) → Cell k → Cell k → Prop
  | .draft, c, d => d.name = c.name
  | .module, c, d => d.name = c.name
  | .coroutine, c, d => d.activity = c.activity
  | .future, c, d => d = c
  | .pipeline, c, d => d = c
  | .loader, c, d => d = c
  | .manager, c, d => d = c
  | .store, c, d => d = c
  | _, _, _ => True

namespace Cell

theorem Follows.refl (k : Kind) (c : Cell k) : Follows k c c := by
  cases k <;> first | trivial | exact Future.Follows.refl c | exact ⟨_, rfl⟩ | exact ⟨_, rfl, fun _ h => h⟩

theorem Follows.trans {k : Kind} {b c d : Cell k} (first : Follows k b c) (next : Follows k c d) :
    Follows k b d := by
  cases k
  case future => exact Future.Follows.trans first next
  case loader =>
    obtain ⟨_, rfl⟩ := first
    obtain ⟨_, rfl⟩ := next
    exact ⟨_, rfl⟩
  case manager =>
    obtain ⟨_, rfl, grown⟩ := first
    obtain ⟨_, rfl, grown'⟩ := next
    exact ⟨_, rfl, fun s h => grown' s (grown s h)⟩
  all_goals first | trivial | exact Eq.trans next first

theorem Rests.follows {k : Kind} {c d : Cell k} (rests : Rests k c d) : Follows k c d := by
  cases k
  case future | loader | manager => exact rests ▸ Follows.refl _ _
  all_goals trivial

theorem Rests.refl (k : Kind) (c : Cell k) : Rests k c c := by
  cases k <;> trivial

theorem Rests.trans {k : Kind} {b c d : Cell k} (first : Rests k b c) (next : Rests k c d) :
    Rests k b d := by
  cases k <;> first | trivial | exact Eq.trans next first

end Cell

namespace Heap

variable {k : Kind}

theorem ext_ref {r s : Ref k} (h : r.id = s.id) : r = s := by
  cases r; cases s; simp_all

theorem live_alloc {h : Heap} {c : Cell k} {r : Ref k} :
    (h.alloc k c).Live r ↔ h.Live r ∨ r = h.fresh k := by
  unfold Live alloc fresh
  rw [table_setTable, Array.size_push, Nat.lt_succ_iff_lt_or_eq]
  exact or_congr Iff.rfl ⟨fun e => ext_ref e, fun e => by rw [e]⟩

theorem live_alloc_kind {h : Heap} {l : Kind} {c : Cell l} {r : Ref k} (ne : k ≠ l) :
    (h.alloc l c).Live r ↔ h.Live r := by
  simp [Live, alloc, table_setTable_ne _ _ ne]

theorem live_set {h : Heap} {l : Kind} {r : Ref k} {s : Ref l} {c : Cell l} :
    (h.set s c).Live r ↔ h.Live r := by
  by_cases e : k = l
  · subst e
    simp [Live, set, table_setTable]
  · simp [Live, set, table_setTable_ne _ _ e]

theorem not_live_fresh (h : Heap) (k : Kind) : ¬ h.Live (h.fresh k) := Nat.lt_irrefl _

theorem live_fresh_alloc (h : Heap) (c : Cell k) : (h.alloc k c).Live (h.fresh k) :=
  live_alloc.mpr (.inr rfl)

theorem ne_fresh {h : Heap} {r : Ref k} (live : h.Live r) : r ≠ h.fresh k := by
  rintro rfl
  exact not_live_fresh h k live

theorem get_not_live {h : Heap} {r : Ref k} (dead : ¬ h.Live r) : h.get r = default := by
  unfold Live at dead
  simp [get, Array.getElem?_eq_none (Nat.le_of_not_lt dead)]

theorem set_not_live {h : Heap} {r : Ref k} (c : Cell k) (dead : ¬ h.Live r) :
    (h.set r c).get r = h.get r := by
  rw [get_not_live dead, get_not_live (fun live => dead (live_set.mp live))]

end Heap

namespace World

variable {w u v : World} {k : Kind}

def set (w : World) (r : Ref k) (c : Cell k) : World := { w with heap := w.heap.set r c }

def alloc (w : World) (k : Kind) (c : Cell k) : World := { w with heap := w.heap.alloc k c }

def announced (w : World) (e : Emission) : World := { w with emitted := w.emitted ++ [e] }

def enqueue (w : World) (j : Job) : World := { w with ready := w.ready ++ [j] }

/-- What lasts from one moment to a later one. -/
structure Evolves (w v : World) : Prop where
  functions : v.functions = w.functions
  size : ∀ k : Kind, (w.heap.table k).size ≤ (v.heap.table k).size
  follows : ∀ {k : Kind} (r : Ref k), w.heap.Live r →
    Cell.Follows k (w.heap.get r) (v.heap.get r)

structure Endures (w v : World) : Prop where
  functions : v.functions = w.functions
  size : ∀ k : Kind, (w.heap.table k).size ≤ (v.heap.table k).size
  futures : ∀ f : Ref .future, w.heap.Live f → Future.Follows (w.heap.get f) (v.heap.get f)
  coroutines : ∀ c : Ref .coroutine, w.heap.Live c →
    (v.heap.get c).activity = (w.heap.get c).activity

/-- Nothing has happened to the library's own objects or to the scheduler; new futures are done. -/
structure Still (w v : World) : Prop where
  ready : v.ready = w.ready
  current : v.current = w.current
  functions : v.functions = w.functions
  size : ∀ k : Kind, (w.heap.table k).size ≤ (v.heap.table k).size
  rests : ∀ {k : Kind} (r : Ref k), w.heap.Live r → Cell.Rests k (w.heap.get r) (v.heap.get r)
  fresh : ∀ f : Ref .future, ¬ w.heap.Live f → v.heap.Live f →
    (v.heap.get f).status ≠ .waiting ∧ (v.heap.get f).reactions = []

structure Loose (w v : World) : Prop where
  ready : v.ready = w.ready
  current : v.current = w.current
  functions : v.functions = w.functions
  size : ∀ k : Kind, (w.heap.table k).size ≤ (v.heap.table k).size
  rests : ∀ {k : Kind} (r : Ref k), k ≠ .draft → w.heap.Live r →
    Cell.Rests k (w.heap.get r) (v.heap.get r)
  fresh : ∀ f : Ref .future, ¬ w.heap.Live f → v.heap.Live f →
    (v.heap.get f).status ≠ .waiting ∧ (v.heap.get f).reactions = []

def NamesKept (w v : World) : Prop :=
  ∀ d : Ref .draft, w.heap.Live d → (v.heap.get d).name = (w.heap.get d).name

namespace Endures

theorem refl (w : World) : w.Endures w :=
  ⟨rfl, fun _ => Nat.le_refl _, fun _ _ => .refl _, fun _ _ => rfl⟩

theorem live (endures : w.Endures v) {r : Ref k} (live : w.heap.Live r) : v.heap.Live r :=
  Nat.lt_of_lt_of_le live (endures.size k)

theorem trans (first : u.Endures w) (next : w.Endures v) : u.Endures v where
  functions := next.functions.trans first.functions
  size k := Nat.le_trans (first.size k) (next.size k)
  futures f live := (first.futures f live).trans (next.futures f (first.live live))
  coroutines c live := (next.coroutines c (first.live live)).trans (first.coroutines c live)

end Endures

namespace Evolves

theorem endures (evolves : w.Evolves v) : w.Endures v :=
  ⟨evolves.functions, evolves.size, fun f live => evolves.follows f live,
    fun c live => evolves.follows c live⟩

theorem refl (w : World) : w.Evolves w := ⟨rfl, fun _ => Nat.le_refl _, fun _ _ => Cell.Follows.refl _ _⟩

theorem live (evolves : w.Evolves v) {r : Ref k} (live : w.heap.Live r) : v.heap.Live r :=
  Nat.lt_of_lt_of_le live (evolves.size k)

theorem trans (first : u.Evolves w) (next : w.Evolves v) : u.Evolves v where
  functions := next.functions.trans first.functions
  size k := Nat.le_trans (first.size k) (next.size k)
  follows r live := (first.follows r live).trans (next.follows r (first.live live))

theorem ofHeapEq (heap : v.heap = w.heap) (functions : v.functions = w.functions) : w.Evolves v where
  functions := functions
  size _ := by simp [heap]
  follows _ _ := by rw [heap]; exact Cell.Follows.refl _ _

theorem set (w : World) (r : Ref k) (c : Cell k) (follows : Cell.Follows k (w.heap.get r) c) :
    w.Evolves (w.set r c) where
  functions := rfl
  size l := by
    by_cases e : l = k
    · subst e
      simp [World.set, Heap.set, Heap.table_setTable]
    · simp [World.set, Heap.set, Heap.table_setTable_ne _ _ e]
  follows {l} s live := by
    by_cases e : l = k
    · subst e
      by_cases same : s = r
      · subst same
        show Cell.Follows _ _ ((w.heap.set s c).get s)
        rwa [Heap.get_set_self _ _ live]
      · show Cell.Follows _ _ ((w.heap.set r c).get s)
        rw [Heap.get_set_ne _ _ same]
        exact Cell.Follows.refl _ _
    · show Cell.Follows _ _ ((w.heap.set r c).get s)
      rw [Heap.get_set_kind _ _ e]
      exact Cell.Follows.refl _ _

theorem alloc (w : World) (k : Kind) (c : Cell k) : w.Evolves (w.alloc k c) where
  functions := rfl
  size l := by
    by_cases e : l = k
    · subst e
      simp [World.alloc, Heap.alloc, Heap.table_setTable]
    · simp [World.alloc, Heap.alloc, Heap.table_setTable_ne _ _ e]
  follows {l} s live := by
    by_cases e : l = k
    · subst e
      show Cell.Follows _ _ ((w.heap.alloc l c).get s)
      rw [Heap.get_alloc_live _ _ live]
      exact Cell.Follows.refl _ _
    · show Cell.Follows _ _ ((w.heap.alloc k c).get s)
      rw [Heap.get_alloc_kind _ _ e]
      exact Cell.Follows.refl _ _

theorem setNew (evolves : w.Evolves v) {r : Ref k} (c : Cell k) (new : ¬ w.heap.Live r) :
    w.Evolves (v.set r c) where
  functions := evolves.functions
  size l := by
    by_cases e : l = k
    · subst e
      simpa [World.set, Heap.set, Heap.table_setTable] using evolves.size l
    · simpa [World.set, Heap.set, Heap.table_setTable_ne _ _ e] using evolves.size l
  follows {l} s live := by
    have same : (v.set r c).heap.get s = v.heap.get s := by
      by_cases e : l = k
      · subst e
        exact Heap.get_set_ne _ _ fun e => new (e ▸ live)
      · exact Heap.get_set_kind _ _ e
    rw [same]
    exact evolves.follows s live

end Evolves

namespace Still

theorem evolves (still : w.Still v) : w.Evolves v :=
  ⟨still.functions, still.size, fun r live => (still.rests r live).follows⟩

theorem refl (w : World) : w.Still w :=
  ⟨rfl, rfl, rfl, fun _ => Nat.le_refl _, fun _ _ => Cell.Rests.refl _ _, fun _ dead live => absurd live dead⟩

theorem trans (first : u.Still w) (next : w.Still v) : u.Still v where
  ready := next.ready.trans first.ready
  current := next.current.trans first.current
  functions := next.functions.trans first.functions
  size k := Nat.le_trans (first.size k) (next.size k)
  rests r live := (first.rests r live).trans (next.rests r (first.evolves.live live))
  fresh f dead live := by
    by_cases known : w.heap.Live f
    · have same : v.heap.get f = w.heap.get f := next.rests f known
      rw [same]
      exact first.fresh f dead known
    · exact next.fresh f known live

end Still

namespace Loose

theorem still (loose : w.Loose v) (names : w.NamesKept v) : w.Still v where
  ready := loose.ready
  current := loose.current
  functions := loose.functions
  size := loose.size
  rests {k} r live := by
    by_cases draft : k = .draft
    · subst draft
      exact names r live
    · exact loose.rests r draft live
  fresh := loose.fresh

theorem refl (w : World) : w.Loose w :=
  ⟨rfl, rfl, rfl, fun _ => Nat.le_refl _, fun _ _ _ => Cell.Rests.refl _ _,
    fun _ dead live => absurd live dead⟩

theorem trans (first : u.Loose w) (next : w.Loose v) : u.Loose v where
  ready := next.ready.trans first.ready
  current := next.current.trans first.current
  functions := next.functions.trans first.functions
  size k := Nat.le_trans (first.size k) (next.size k)
  rests {k} r ne live :=
    (first.rests r ne live).trans (next.rests r ne (Nat.lt_of_lt_of_le live (first.size k)))
  fresh f dead live := by
    by_cases known : w.heap.Live f
    · have same : v.heap.get f = w.heap.get f := next.rests f (by decide) known
      rw [same]
      exact first.fresh f dead known
    · exact next.fresh f known live

theorem setDraft (w : World) (d : Ref .draft) (c : Draft) : w.Loose (w.set d c) where
  ready := rfl
  current := rfl
  functions := rfl
  size k := by
    by_cases e : k = .draft
    · subst e
      simp [World.set, Heap.set, Heap.table_setTable]
    · simp [World.set, Heap.set, Heap.table_setTable_ne _ _ e]
  rests r ne live := by
    have same : (w.set d c).heap.get r = w.heap.get r := Heap.get_set_kind _ _ ne
    rw [same]
    exact Cell.Rests.refl _ _
  fresh f dead live := absurd (Heap.live_set.mp live) dead

end Loose

theorem still_failure (w : World) (f : Fault) : w.Still (w.alloc .failure f) where
  ready := rfl
  current := rfl
  functions := rfl
  size := (Evolves.alloc w .failure f).size
  rests {k} r live := by
    have same : k ≠ .failure → (w.alloc .failure f).heap.get r = w.heap.get r :=
      fun ne => Heap.get_alloc_kind _ _ ne
    by_cases e : k = .failure
    · subst e
      trivial
    · rw [same e]
      exact Cell.Rests.refl _ _
  fresh r dead live := absurd ((Heap.live_alloc_kind (by decide)).mp live) dead

def Straight (w v : World) : Prop :=
  ∀ r : Ref .failure, Fault.isCircular (v.heap.get r) = true → v.heap.get r = w.heap.get r

theorem Straight.trans (first : u.Straight w) (next : w.Straight v) : u.Straight v := fun r circular => by
  have same := next r circular
  exact same.trans (first r (same ▸ circular))

theorem straight_alloc (w : World) {f : Fault} (straight : f.isCircular = false) :
    w.Straight (w.alloc .failure f) := fun r circular => by
  by_cases same : r = w.heap.fresh .failure
  · subst same
    have new : (w.alloc .failure f).heap.get (w.heap.fresh .failure) = f := Heap.get_alloc_fresh _ _
    rw [new] at circular
    exact absurd circular (by simp [straight])
  · by_cases live : w.heap.Live r
    · exact Heap.get_alloc_live _ _ live
    · have dead : ¬ (w.alloc .failure f).heap.Live r := fun now =>
        (Heap.live_alloc.mp now).elim live same
      rw [Heap.get_not_live dead, Heap.get_not_live live]

theorem Near.onlyStraight (near : w.Near v) : w.Straight v := fun r circular => by
  by_cases live : w.heap.Live r
  · exact near.keeps r live
  · exact absurd circular (by simp [near.straight r live])

structure Slight (w v : World) : Prop where
  loose : w.Loose v
  straight : w.Straight v
  futures : ∀ f : Ref .future, v.heap.get f = w.heap.get f

structure Tame (w v : World) : Prop extends w.Slight v where
  lists : ∀ r : Ref .list, w.heap.Live r → v.heap.get r = w.heap.get r
  modules : ∀ r : Ref .module, w.heap.Live r → (v.heap.get r).deps = (w.heap.get r).deps
  silent : ∃ es, v.emitted = w.emitted ++ es ∧ ∀ e ∈ es, e.id ≠ .str Event.link

theorem Still.loose (still : w.Still v) : w.Loose v :=
  ⟨still.ready, still.current, still.functions, still.size, fun r _ live => still.rests r live,
    still.fresh⟩

theorem Near.still (near : w.Near v) : w.Still v where
  ready := near.ready
  current := near.current
  functions := near.functions
  size := near.size
  rests {k} r live := by
    have hard : k.isData = false → v.heap.get r = w.heap.get r := fun hard => by
      unfold Heap.get
      rw [near.table k hard]
    have keeps := near.keeps r live
    cases k <;> first | trivial | exact keeps | exact keeps.1 | exact hard rfl
  fresh f dead live := by
    unfold Heap.Live at dead live
    rw [near.table .future rfl] at live
    exact absurd live dead

theorem Slight.announced (w : World) (e : Emission) : w.Slight (w.announced e) where
  loose := ⟨rfl, rfl, rfl, fun _ => Nat.le_refl _, fun _ _ _ => Cell.Rests.refl _ _,
    fun _ dead live => absurd live dead⟩
  straight _ _ := rfl
  futures _ := rfl

theorem Tame.refl (w : World) : w.Tame w where
  loose := .refl w
  straight _ _ := rfl
  futures _ := rfl
  lists _ _ := rfl
  modules _ _ := rfl
  silent := ⟨[], by simp⟩

theorem Tame.trans (first : u.Tame w) (next : w.Tame v) : u.Tame v where
  loose := first.loose.trans next.loose
  straight := first.straight.trans next.straight
  futures f := (next.futures f).trans (first.futures f)
  lists r live := (next.lists r (Nat.lt_of_lt_of_le live (first.loose.size _))).trans
    (first.lists r live)
  modules r live := (next.modules r (Nat.lt_of_lt_of_le live (first.loose.size _))).trans
    (first.modules r live)
  silent := by
    obtain ⟨es, one, others⟩ := first.silent
    obtain ⟨fs, two, rest⟩ := next.silent
    refine ⟨es ++ fs, by rw [two, one, List.append_assoc], fun e mem => ?_⟩
    exact (List.mem_append.mp mem).elim (others e) (rest e)

theorem Tame.announced (w : World) {e : Emission} (other : e.id ≠ .str Event.link) :
    w.Tame (w.announced e) where
  toSlight := .announced w e
  lists _ _ := rfl
  modules _ _ := rfl
  silent := ⟨[e], rfl, fun f mem => by rw [List.mem_singleton.mp mem]; exact other⟩

theorem Near.tame (near : w.Near v) : w.Tame v where
  loose := near.still.loose
  straight := near.onlyStraight
  futures f := by
    unfold Heap.get
    rw [near.table .future rfl]
  lists r live := near.keeps r live
  modules r live := (near.keeps r live).2
  silent := ⟨[], by rw [near.emitted, List.append_nil], by simp⟩

end World
end AsyncImport
