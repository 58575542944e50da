import AsyncImport.Proofs.Turns

/-!
# Cancellation

A request for cancellation travels along waits and ends at a future that nobody makes, which it
cancels, or at a task, whose cancellation is then due. It ends no task, and no task waits for anything
else after it.
-/

namespace AsyncImport

namespace World

variable {u w v : World} {t f : Ref .future}

namespace Mild

theorem refl (t : Ref .future) (w : World) : Mild t w w := ⟨rfl, rfl, rfl⟩

theorem trans (first : Mild t u w) (next : Mild t w v) : Mild t u v :=
  ⟨next.status.trans first.status, next.activity.trans first.activity,
    next.waitsFor.trans first.waitsFor⟩

theorem ofGet (same : v.heap.get t = w.heap.get t) : Mild t w v := by
  constructor <;> rw [same]

theorem task? (mild : Mild t w v) : v.task? t = w.task? t := by
  unfold World.task?
  rw [mild.status, mild.activity]

end Mild

theorem Spares.mild (spares : Spares t w v) : Mild t w v where
  status := spares.status
  activity := by
    unfold Future.activity?
    rw [spares.origin]
  waitsFor := spares.waitsFor?

/-! ## Requests for cancellation -/

structure Asked (w v : World) : Prop where
  turns : w.Turns v
  current : v.current = w.current
  mild : ∀ t, w.task? t ≠ none → Mild t w v
  old : ∀ g : Ref .future, v.heap.Live g → w.heap.Live g
  results : ∀ {g : Ref .future} {x}, (v.heap.get g).status = .done x → (w.heap.get g).status = .done x

namespace Asked

theorem refl (w : World) : Asked w w := ⟨.refl w, rfl, fun t _ => .refl t w, fun _ live => live, id⟩

theorem trans (first : Asked u w) (next : Asked w v) : Asked u v where
  turns := first.turns.trans next.turns
  current := next.current.trans first.current
  mild t task := (first.mild t task).trans (next.mild t (by rwa [(first.mild t task).task?]))
  old g live := first.old g (next.old g live)
  results done := first.results (next.results done)

theorem ofTouches (touches : Touches f w v) (mild : w.task? f ≠ none → Mild f w v)
    (results : ∀ {x}, (v.heap.get f).status = .done x → (w.heap.get f).status = .done x) : Asked w v where
  turns := touches.turns
  current := touches.current
  mild t task := by
    by_cases same : t = f
    · subst same
      exact mild task
    · exact .ofGet (touches.others t same)
  old := touches.old
  results {g x} done := by
    by_cases same : g = f
    · subst same
      exact results done
    · rwa [touches.others g same] at done

theorem ofSet {c : Future} (follows : Future.Follows (w.heap.get f) c)
    (status : c.status = (w.heap.get f).status) (mild : w.task? f ≠ none → Mild f w (w.set f c)) :
    Asked w (w.set f c) := by
  refine .ofTouches (.set w c follows) mild fun {x} done => ?_
  by_cases live : w.heap.Live f
  · have get : (w.set f c).heap.get f = c := (get_set _ _ _ live).trans (if_pos rfl)
    rwa [get, status] at done
  · have get : (w.set f c).heap.get f = w.heap.get f := Heap.set_not_live _ live
    rwa [get] at done

theorem endures (asked : Asked w v) : w.Endures v := asked.turns.evolves.endures

end Asked

theorem members?_eq_some {c : Future} {ms : List (Ref .future)} :
    c.members? = some ms ↔ ∃ n b, c.origin = .group ms n b := by
  unfold Future.members?
  split
  · next h => simp [h]
  · next h =>
    simp only [reduceCtorEq, false_iff]
    rintro ⟨n, b, e⟩
    exact h ms n b e

theorem asked_flag {a : Activity} {g : Option (Ref .future)} (task : w.task? f = some a)
    (waits : (w.heap.get f).waitsFor? = g) :
    Asked w (w.set f { w.heap.get f with origin := .task a g true }) := by
  obtain ⟨-, activity⟩ := task?_eq_some.mp task
  obtain ⟨h, b, origin⟩ := activity?_eq_some.mp activity
  have follows : Future.Follows (w.heap.get f) { w.heap.get f with origin := .task a g true } :=
    ⟨fun _ => rfl, by simp [Future.activity?, origin], by simp [Future.members?, origin]⟩
  refine .ofSet follows rfl fun _ => ?_
  constructor <;> rw [get_set _ _ _ (task?_live (by simp [task])), if_pos rfl]
  · exact follows.activity
  · exact waits.symm

theorem asked_group {c : Future} (members : (w.heap.get f).members? ≠ none)
    (status : c.status = (w.heap.get f).status) (same : c.members? = (w.heap.get f).members?) :
    Asked w (w.set f c) := by
  have noTask {d : Future} (group : d.members? ≠ none) : d.activity? = none := by
    obtain ⟨ms, group⟩ := Option.ne_none_iff_exists'.mp group
    obtain ⟨n, b, origin⟩ := members?_eq_some.mp group
    simp [Future.activity?, origin]
  refine .ofSet ⟨fun _ => status, ?_, same⟩ status fun task => ?_
  · rw [noTask members, noTask (same ▸ members)]
  · obtain ⟨a, task⟩ := Option.ne_none_iff_exists'.mp task
    have activity := (task?_eq_some.mp task).2
    rw [noTask members] at activity
    cases activity

def Asks {α : Type} (w : World) (e : Except Fault α × World) : Prop :=
  ∃ x v, e = (.ok x, v) ∧ Asked w v

theorem asks_bind {α β : Type} {e : Edit α} {g : α → Edit β} (first : Asks w (e u))
    (next : ∀ x v, Asked w v → Asks w (g x v)) : Asks w ((e >>= g) u) := by
  obtain ⟨x, v, run, asked⟩ := first
  rw [Edit.run_bind, run]
  exact next x v asked

theorem Asked.asks {α : Type} {e : Except Fault α × World} (asked : Asked u w) (asks : Asks w e) :
    Asks u e := by
  obtain ⟨x, v, run, more⟩ := asks
  exact ⟨x, v, run, asked.trans more⟩

theorem asks_mapM {xs : List (Ref .future)} {e : Ref .future → Edit Bool}
    (each : ∀ x w, Asks w (e x w)) : ∀ w, Asks w (xs.mapM e w) := by
  induction xs with
  | nil => exact fun w => ⟨_, _, rfl, .refl w⟩
  | cons x xs ih =>
    intro w
    rw [List.mapM_cons]
    exact asks_bind (each x w) fun y u first =>
      asks_bind (first.asks (ih u)) fun ys v asked => ⟨_, _, rfl, asked⟩

theorem asks_within (fuel : Nat) : ∀ f w, Asks w (Edit.cancelWithin fuel f w) := by
  induction fuel with
  | zero => exact fun f w => ⟨_, _, rfl, .refl w⟩
  | succ fuel ih =>
    intro f w
    unfold Edit.cancelWithin
    simp only [Edit.run_bind, Edit.run_lift, Quiet.run_read]
    by_cases done : (w.heap.get f).status.isDone
    · rw [if_pos done]
      exact ⟨_, _, rfl, .refl w⟩
    rw [if_neg done]
    have waiting : (w.heap.get f).status = .waiting := by simpa [Status.isDone] using done
    cases origin : (w.heap.get f).origin with
    | plain =>
      have noTask : w.task? f = none := by simp [World.task?, waiting, Future.activity?, origin]
      have ended : Asks w (Edit.complete f .cancelled w) := by
        refine ⟨(), _, ?_, .ofTouches (f := f) (.complete w .cancelled) (absurd noTask) fun {x} done => ?_⟩
        · rw [Edit.run_complete]
        · rcases status_completed w f f .cancelled with kept | ended
          · rwa [kept] at done
          · rw [ended] at done
            cases done
      exact asks_bind ended fun _ u asked => ⟨true, u, rfl, asked⟩
    | task a g c =>
      have task : w.task? f = some a := task?_eq_some.mpr ⟨waiting, by simp [Future.activity?, origin]⟩
      have waits : (w.heap.get f).waitsFor? = g := by simp [Future.waitsFor?, origin]
      have due {u : World} (asked : Asked w u) :
          Asked w (u.set f { u.heap.get f with origin := .task a g true }) := by
        have mild := asked.mild f (by simp [task])
        exact asked.trans (asked_flag (mild.task?.trans task) (mild.waitsFor.trans waits))
      cases g with
      | none => exact ⟨_, _, rfl, due (.refl w)⟩
      | some g =>
        refine asks_bind (ih g w) fun passed u asked => ?_
        cases passed with
        | true => exact ⟨_, _, rfl, asked⟩
        | false => exact ⟨_, _, rfl, due asked⟩
    | group ms n c =>
      have live : w.heap.Live f := by
        by_contra dead
        rw [Heap.get_not_live dead] at origin
        cases origin
      refine asks_bind (asks_mapM ih w) fun any u asked => ?_
      by_cases found : any.any id
      · rw [if_pos found]
        have members : (u.heap.get f).members? = some ms :=
          (asked.endures.futures f live).members.trans (by simp [Future.members?, origin])
        obtain ⟨n', b, origin'⟩ := members?_eq_some.mp members
        refine ⟨_, _, rfl, asked.trans (asked_group (w := u) (f := f) (by simp [members]) ?_ ?_)⟩
        · simp [origin']
        · simp [Future.members?, origin']
      · rw [if_neg found]
        exact ⟨_, _, rfl, asked⟩

theorem asks_cancel (f : Ref .future) (w : World) : Asks w (Edit.cancel f w) := asks_within _ f w

/-! ## Tasks whose cancellation may be due -/

theorem Runs.active (runs : w.Runs t) : w.Active t :=
  ⟨runs.1, runs.2.choose, false, runs.2.choose_spec⟩

theorem Active.task? (active : w.Active t) : w.task? t ≠ none := by
  obtain ⟨waiting, a, c, origin⟩ := active
  simp [World.task?, waiting, Future.activity?, origin]

theorem Active.ofMild (active : w.Active t) (mild : Mild t w v) : v.Active t := by
  obtain ⟨waiting, a, c, origin⟩ := active
  have activity : (v.heap.get t).activity? = some a :=
    mild.activity.trans (by simp [Future.activity?, origin])
  obtain ⟨g, d, origin'⟩ := activity?_eq_some.mp activity
  have free : (v.heap.get t).waitsFor? = none :=
    mild.waitsFor.trans (by simp [Future.waitsFor?, origin])
  obtain rfl : g = none := by simpa [Future.waitsFor?, origin'] using free
  exact ⟨mild.status.trans waiting, a, d, origin'⟩

/-- What the world is like while the running task is set aside to wait for a future that is not done: a
cancellation that is due was passed on. -/
structure Parked (t f : Ref .future) (w v : World) : Prop where
  turns : w.Turns v
  current : v.current = none
  waits : (v.heap.get t).waitsFor? = some f
  status : (v.heap.get t).status = .waiting
  mild : ∀ s, s ≠ t → w.task? s ≠ none → Mild s w v
  old : ∀ g : Ref .future, v.heap.Live g → w.heap.Live g
  results : ∀ {g : Ref .future} {x}, (v.heap.get g).status = .done x → (w.heap.get g).status = .done x

theorem asked_attached (w : World) (f : Ref .future) (r : Reaction) :
    Asked w (w.set f { w.heap.get f with reactions := (w.heap.get f).reactions ++ [r] }) := by
  refine .ofSet ⟨fun _ => rfl, rfl, rfl⟩ rfl fun task => ?_
  constructor <;> rw [get_set _ _ _ (task?_live task), if_pos rfl] <;> rfl

theorem parked_awaiting (waiting : (w.heap.get f).status = .waiting) (active : w.Active t)
    (ne : t ≠ f) : Parked t f w (w.awaiting t f) := by
  have task := active.task?
  obtain ⟨undone, a, c, origin⟩ := active
  let idle : World := { w with current := none }
  let u : World := idle.set f { w.heap.get f with
    reactions := (w.heap.get f).reactions ++ [.wake t] }
  have attach : Edit.attach f (.wake t) idle = (.ok (), u) := by
    rw [Edit.run_attach, if_neg (by simp [idle, waiting, Status.isDone])]
  have kept : (u.heap.get t).origin = .task a none c :=
    (congrArg Future.origin (get_set_ne _ ne)).trans origin
  -- what the request for cancellation does, if there is one
  have asks : Asks idle ((if c then Edit.cancel f else pure false) u) :=
    (asked_attached idle f (.wake t)).asks (by
      cases c with
      | false => exact ⟨_, _, rfl, .refl u⟩
      | true => exact asks_cancel f u)
  obtain ⟨passed, x, run, asked⟩ := asks
  have is : w.awaiting t f =
      x.set t { x.heap.get t with origin := .task a (some f) (c && !passed) } := by
    unfold awaiting Edit.waitFor
    rw [Edit.run_bind, attach]
    cases c <;> simp_all [Edit.run_bind]
  have mild : Mild t idle x := asked.mild t task
  have live : x.heap.Live t := task?_live (by rw [mild.task?]; exact task)
  have activity : (x.heap.get t).activity? = some a :=
    mild.activity.trans (by simp [idle, Future.activity?, origin])
  obtain ⟨h, d, before⟩ := activity?_eq_some.mp activity
  have get : (w.awaiting t f).heap.get t =
      { x.heap.get t with origin := .task a (some f) (c && !passed) } := by
    rw [is, get_set _ _ _ live, if_pos rfl]
  refine ⟨?_, ?_, ?_, ?_, fun s other task => ?_, fun g live => ?_, fun {h y} done => ?_⟩
  · have aside : w.Turns idle := .ofHeapEq rfl rfl rfl
    rw [is]
    refine (aside.trans asked.turns).trans (.setFuture x t _ ⟨fun _ => rfl, ?_, ?_⟩)
    · simp [Future.activity?, before]
    · simp [Future.members?, before]
  · rw [is]
    exact asked.current
  · rw [get]
    rfl
  · rw [get]
    exact mild.status.trans undone
  · have first : Mild s w x := (Mild.ofGet rfl : Mild s w idle).trans (asked.mild s task)
    rw [is]
    exact first.trans (.ofGet (get_set_ne _ other))
  · rw [is] at live
    exact asked.old g (live_set.mp live)
  · by_cases same : h = t
    · subst same
      rw [get] at done
      cases (mild.status.trans undone).symm.trans done
    · rw [is, get_set_ne _ same] at done
      exact asked.results done

end World

namespace Machine

def Calm (w : World) : Prop := ∀ {t : Ref .future} {a f c}, (w.heap.get t).status = .waiting →
  (w.heap.get t).origin = .task a f c → c = false

theorem Calm.not_flagged {w : World} {t : Ref .future} (calm : Calm w) (task : w.task? t ≠ none) :
    ¬ w.Flagged t := by
  rintro ⟨a, f, origin⟩
  obtain ⟨b, task⟩ := Option.ne_none_iff_exists'.mp task
  cases calm (World.task?_eq_some.mp task).1 origin

end Machine

namespace Protocol

theorem sparing_strict : Sparing World.Spares World.Runs where
  ofSpares := id
  trans := World.Spares.trans
  mild := World.Spares.mild
  resumed := id
  active := World.Runs.active
  stays := World.Runs.ofSpares
  awaiting runs waiting ne other _ := World.spares_awaiting waiting runs ne other

theorem sparing_mild : Sparing World.Mild World.Active where
  ofSpares := World.Spares.mild
  trans := World.Mild.trans
  mild := id
  resumed := World.Runs.active
  active := id
  stays := World.Active.ofMild
  awaiting active waiting ne other task := (World.parked_awaiting waiting active ne).mild _ other task

end Protocol
end AsyncImport
