import AsyncImport.Proofs.Soundness

/-!
# One protocol on top of another

What a first protocol has shown of every request can be counted on when a second one is proved: the
conduct of the second is the first one's, `backed` by what it shows. What holds after each change that
a protocol admits holds in every state of a run, and not only when the turn passes.
-/

namespace AsyncImport

structure Conduct.Meets (c d : Conduct) : Prop where
  writes : ∀ {a w v}, c.writes a w v → d.writes a w v
  calls : ∀ {a w b}, c.calls a w b → d.calls a w b
  pauses : ∀ {a w}, c.pauses a w → d.pauses a w
  awaits : ∀ {a w f}, c.awaits a w f → d.awaits a w f
  ends : ∀ {a w o}, c.ends a w o → d.ends a w o

theorem Conduct.Meets.observed {c d : Conduct} {m : Machine} (meets : c.Meets d)
    (observed : c.Observed m) : d.Observed m := by
  intro x focus
  have expected := observed x focus
  cases code : x.code <;> rw [code] at expected
  case done | fail => exact meets.ends expected
  case read => trivial
  case write => exact meets.writes expected
  case pause => exact meets.pauses expected
  case await => exact meets.awaits expected
  case call => exact meets.calls expected

theorem Machine.Run.meets {body : Meaning} {c d : Conduct} {start m : Machine} (meets : c.Meets d)
    (run : Machine.Run body c start m) : Machine.Run body d start m := by
  induction run with
  | start => exact .start
  | step _ observed next ih => exact ih.step (meets.observed observed) next
  | visit _ idle r ih => exact ih.visit idle r

namespace Protocol

variable {P : Protocol}

/-- What is expected of a host, with what a protocol has shown of every request. -/
def backed (P : Protocol) (c : Conduct) : Conduct where
  writes a w v := c.writes a w v ∧ P.move a w v ∧ P.Fair w v
  calls a w b := c.calls a w b ∧ P.pre a b w
  pauses a w := c.pauses a w ∧ ∀ t, w.current = some t → P.runs w t
  awaits a w f := c.awaits a w f ∧ ∀ t, w.current = some t → P.runs w t
  ends := c.ends

theorem backed_meets {c d : Conduct} (meets : c.Meets d) : (P.backed c).Meets d where
  writes expected := meets.writes expected.1
  calls expected := meets.calls expected.1
  pauses expected := meets.pauses expected.1
  awaits expected := meets.awaits expected.1
  ends := meets.ends

theorem Good.backed {c : Conduct} {m : Machine} (good : P.Good m) (meets : c.Meets P.conduct)
    (observed : c.Observed m) : (P.backed c).Observed m := by
  intro x focus
  have expected := observed x focus
  obtain ⟨Q, safe, -⟩ := good.safe x focus
  cases code : x.code <;> rw [code] at expected safe
  case read => trivial
  case write =>
    obtain ⟨move, fair, -⟩ := safe (meets.writes expected)
    exact ⟨expected, move, fair⟩
  case call => exact ⟨expected, (safe (meets.calls expected)).1⟩
  case pause | await =>
    refine ⟨expected, fun t own => (good.runs x t focus ?_).1⟩
    rw [← good.owner x focus, own]
  all_goals exact expected

/-- Along a run that keeps to a protocol, what it shows can be counted on. -/
theorem run_backed {c : Conduct} {start m : Machine} (lawful : P.Lawful) (good : P.Good start)
    (ground : ∀ {m}, Machine.Run P.body P.conduct start m → m.focus = none → P.ground m.world)
    (meets : c.Meets P.conduct) (run : Machine.Run P.body c start m) :
    Machine.Run P.body (P.backed c) start m := by
  induction run with
  | start => exact .start
  | step run observed next ih =>
    exact ih.step ((good_run lawful good ground (run.meets meets)).backed meets observed) next
  | visit _ idle r ih => exact ih.visit idle r

end Protocol

/-! ## Every state of a run -/

namespace Machine

variable {body : Meaning} {m n : Machine}

inductive Changed (m : Machine) (x : Focus) : World → Prop
  | same : Changed m x m.world
  | failure {f : Fault} (straight : f.isCircular = false) : Changed m x (m.world.alloc .failure f)
  | write {v : World} {k : Routine Value} (code : x.code = .write v k) : Changed m x v

theorem changed_advance (m : Machine) (body : Meaning) (x : Focus) :
    (m.advance body x).focus = none ∨ Changed m x (m.advance body x).world := by
  have finished (owner : Option (Ref .future)) (o : Outcome) : (m.finish owner o).focus = none := by
    unfold finish
    cases owner <;> rfl
  unfold advance
  cases code : x.code with
  | done v =>
    cases x.frames with
    | nil => exact .inl (finished _ _)
    | cons k frames => exact .inr .same
  | fail e =>
    cases x.frames with
    | nil => exact .inl (finished _ _)
    | cons k frames => exact .inr .same
  | read k => exact .inr .same
  | write v k => exact .inr (.write code)
  | call a k => exact .inr .same
  | pause k =>
    cases x.owner with
    | none => exact .inr (.failure rfl)
    | some t => exact .inl rfl
  | await f k =>
    rcases Protocol.outcome?_eq m f with ⟨o, v, yields, asked⟩ | ⟨-, asked⟩
    · simp only [asked]
      cases yields with
      | done | failed => exact .inr .same
      | cancelled => exact .inr (.failure rfl)
    · simp only [asked]
      cases x.owner with
      | none => exact .inr (.failure rfl)
      | some t =>
        by_cases own : t = f
        · subst own
          simp only [decide_true, Bool.or_true, if_true]
          exact .inr (.failure rfl)
        · rw [if_neg (by simp [own])]
          exact .inl rfl

def Wakened (m : Machine) (jobs : List Job) (v : World) : Prop :=
  ∃ u t, (v = World.resumed u t jobs ∨ v = (World.resumed u t jobs).alloc .failure .cancelled) ∧
    (u = m.world ∨ u = m.world.alloc .failure .cancelled)

theorem wakened_wake {u : World} {jobs : List Job} (idle : m.focus = none)
    (is : u = m.world ∨ u = m.world.alloc .failure .cancelled) (t : Ref .future) (o : Outcome) :
    (wake body { m with world := { u with ready := jobs } } t o).focus = none ∨
      Wakened m jobs (wake body { m with world := { u with ready := jobs } } t o).world := by
  unfold wake
  dsimp only
  split
  · split
    · split
      · unfold resume
        split
        · exact .inr ⟨u, t, .inl rfl, is⟩
        · exact .inl idle
      · exact .inr ⟨u, t, .inl rfl, is⟩
    · split
      · unfold resume
        split
        · exact .inr ⟨u, t, .inr rfl, is⟩
        · exact .inl idle
      · exact .inl idle
  · exact .inl idle

theorem wakened_carryOut {j : Job} {jobs : List Job} (idle : m.focus = none) :
    (carryOut body { m with world := { m.world with ready := jobs } } j).focus = none ∨
      Wakened m jobs (carryOut body { m with world := { m.world with ready := jobs } } j).world := by
  unfold carryOut
  cases j with
  | step t =>
    dsimp only
    split
    · exact wakened_wake idle (.inl rfl) t _
    · exact .inl idle
  | react r f =>
    cases r with
    | tell g => exact .inl idle
    | wake t =>
      dsimp only
      split
      · unfold outcome?
        cases (m.world.heap.get f).status with
        | waiting => exact .inl idle
        | done v | failed v => exact wakened_wake idle (.inl rfl) t _
        | cancelled => exact wakened_wake idle (.inr rfl) t _
      · exact .inl idle

theorem turns_wake {u : World} (turns : m.world.Turns u) (body : Meaning) (jobs : List Job)
    (t : Ref .future) (o : Outcome) :
    m.world.Turns (wake body { m with world := { u with ready := jobs } } t o).world := by
  have popped : m.world.Turns { u with ready := jobs } := turns.trans (.ofHeapEq rfl rfl rfl)
  have going : m.world.Turns ((Edit.goOn t) { u with ready := jobs }).2 :=
    popped.trans (.setFuture _ t _ (World.follows_goOn _))
  have resumed {n : Machine} (turns : m.world.Turns n.world) (p : Outcome) :
      m.world.Turns (n.resume t p).world := by
    unfold resume
    split
    · exact turns.trans (.ofHeapEq rfl rfl rfl)
    · exact turns
  unfold wake
  dsimp only
  split
  · split
    · split
      · exact resumed going o
      · exact going.trans (.ofHeapEq rfl rfl rfl)
    · split
      · exact resumed (going.trans (.failure _ _)) _
      · exact going.trans (World.turns_completed _ t _)
  · exact popped

theorem turns_carryOut (m : Machine) (body : Meaning) (j : Job) (jobs : List Job) :
    m.world.Turns (carryOut body { m with world := { m.world with ready := jobs } } j).world := by
  have popped : m.world.Turns { m.world with ready := jobs } := .ofHeapEq rfl rfl rfl
  unfold carryOut
  cases j with
  | step t =>
    dsimp only
    split
    · exact turns_wake (.refl _) body jobs t _
    · exact popped
  | react r f =>
    cases r with
    | tell g => exact popped.trans (World.touches_report g f _).turns
    | wake t =>
      dsimp only
      split
      · rcases Protocol.outcome?_eq { m with world := { m.world with ready := jobs } } f with
          ⟨o, v, yields, asked⟩ | ⟨-, asked⟩
        · rw [asked]
          obtain ⟨u, yielded, rfl⟩ := Protocol.yields_popped yields
          exact turns_wake (Protocol.turns_yields yielded) body jobs t o
        · rw [asked]
          exact popped
      · exact popped

theorem status_wake {u : World} {jobs : List Job}
    (same : ∀ f : Ref .future, u.heap.get f = m.world.heap.get f) (t s : Ref .future) (o : Outcome) :
    ((wake body { m with world := { u with ready := jobs } } t o).world.heap.get s).status =
        (m.world.heap.get s).status ∨
      ((wake body { m with world := { u with ready := jobs } } t o).world.heap.get s).status =
        .cancelled := by
  have resumed : ((u.resumed t jobs).heap.get s).status = (m.world.heap.get s).status := by
    rw [World.status_resumed, same s]
  have told : (((u.resumed t jobs).alloc .failure .cancelled).heap.get s).status =
      (m.world.heap.get s).status := by
    rw [World.get_alloc_kind _ (by decide)]
    exact resumed
  unfold wake
  dsimp only
  split
  · split
    · split
      · unfold resume
        split <;> exact .inl resumed
      · exact .inl resumed
    · split
      · unfold resume
        split <;> exact .inl told
      · rcases World.status_completed ({ u.set t (u.heap.get t).goOn with ready := jobs }) t s
          .cancelled with kept | ended
        · exact .inl (kept.trans resumed)
        · exact .inr ended
  · exact .inl (by rw [← same s])

theorem status_carryOut {s : Ref .future} (task : m.world.task? s ≠ none) (j : Job)
    (jobs : List Job) :
    ((carryOut body { m with world := { m.world with ready := jobs } } j).world.heap.get s).status =
        (m.world.heap.get s).status ∨
      ((carryOut body { m with world := { m.world with ready := jobs } } j).world.heap.get s).status =
        .cancelled := by
  unfold carryOut
  cases j with
  | step t =>
    dsimp only
    split
    · exact status_wake (fun _ => rfl) t s _
    · exact .inl rfl
  | react r f =>
    cases r with
    | tell g =>
      exact .inl
        (World.spares_report (g := g) (f := f) (w := { m.world with ready := jobs }) task).status
    | wake t =>
      dsimp only
      split
      · rcases Protocol.outcome?_eq { m with world := { m.world with ready := jobs } } f with
          ⟨o, v, yields, asked⟩ | ⟨-, asked⟩
        · rw [asked]
          obtain ⟨u, yielded, rfl⟩ := Protocol.yields_popped yields
          exact status_wake (Protocol.get_yields yielded) t s o
        · rw [asked]
          exact .inl rfl
      · exact .inl rfl

end Machine

theorem Protocol.Good.turns {P : Protocol} {m n : Machine} (lawful : P.Lawful) (good : P.Good m)
    (next : m.step P.body = some n) :
    m.world.Turns n.world ∨ ∃ x k, m.focus = some x ∧ x.code = .write n.world k := by
  unfold Machine.step at next
  split at next
  · next x focus =>
    obtain rfl := Option.some.inj next
    have finished (o : Outcome) : m.world.Turns (m.finish x.owner o).world := by
      unfold Machine.finish
      cases x.owner with
      | none => exact .ofHeapEq rfl rfl rfl
      | some t => exact World.turns_ended m.world t o
    unfold Machine.advance
    cases code : x.code with
    | done v =>
      cases x.frames with
      | nil => exact .inl (finished _)
      | cons k frames => exact .inl (.refl _)
    | fail e =>
      cases x.frames with
      | nil => exact .inl (finished _)
      | cons k frames => exact .inl (.refl _)
    | read k => exact .inl (.refl _)
    | write v k => exact .inr ⟨x, k, focus, code⟩
    | call a k => exact .inl (.refl _)
    | pause k =>
      cases x.owner with
      | none => exact .inl (.failure _ _)
      | some t => exact .inl (World.turns_paused m.world t)
    | await f k =>
      rcases Protocol.outcome?_eq m f with ⟨o, v, yields, asked⟩ | ⟨waiting, asked⟩
      · simp only [asked]
        exact .inl (Protocol.turns_yields yields)
      · simp only [asked]
        cases owner : x.owner with
        | none => exact .inl (.failure _ _)
        | some t =>
          by_cases own : t = f
          · subst own
            simp only [decide_true, Bool.or_true, if_true]
            exact .inl (.failure _ _)
          · rw [if_neg (by simp [own])]
            have active := lawful.sparing.active (good.runs x t focus owner).1
            exact .inl (World.parked_awaiting waiting active own).turns
  · split at next
    · cases next
    · next ready =>
      obtain rfl := Option.some.inj next
      exact .inl (Machine.turns_carryOut m P.body _ _)

theorem Protocol.Good.ends {P : Protocol} {m n : Machine} {t : Ref .future} (lawful : P.Lawful)
    (good : P.Good m) (observed : P.conduct.Observed m) (next : m.step P.body = some n)
    (task : m.world.task? t ≠ none) :
    (n.world.heap.get t).status = (m.world.heap.get t).status ∨
      (n.world.heap.get t).status = .cancelled ∨
      ∃ o, P.Ends (some t) o m.world ∧ n.world = m.world.ended t o := by
  unfold Machine.step at next
  split at next
  · next x focus =>
    obtain rfl := Option.some.inj next
    obtain ⟨Q, safe, stack⟩ := good.safe x focus
    have expected := observed x focus
    have current := good.owner x focus
    -- only the end of the last routine of a thread can end its task
    have finished {o : Outcome} (frames : x.frames = [])
        (ends : P.conduct.ends x.activity m.world o) (result : Q o m.world) :
        ((m.finish x.owner o).world.heap.get t).status = (m.world.heap.get t).status ∨
          ((m.finish x.owner o).world.heap.get t).status = .cancelled ∨
          ∃ p, P.Ends (some t) p m.world ∧ (m.finish x.owner o).world = m.world.ended t p := by
      rw [frames] at stack
      have final := stack o m.world (Protocol.lasts_refl lawful _) current ends result
      cases owner : x.owner with
      | none => exact .inl rfl
      | some s =>
        rw [owner] at final
        by_cases same : t = s
        · subst same
          exact .inr (.inr ⟨o, final, rfl⟩)
        · exact .inl (congrArg Future.status (World.get_ended_ne m.world o same))
    unfold Machine.advance
    cases code : x.code with
    | done v =>
      rw [code] at safe expected
      cases frames : x.frames with
      | nil => exact finished frames expected safe
      | cons k frames => exact .inl rfl
    | fail e =>
      rw [code] at safe expected
      cases frames : x.frames with
      | nil => exact finished frames expected safe
      | cons k frames => exact .inl rfl
    | read k => exact .inl rfl
    | write v k =>
      rw [code] at safe expected
      exact .inl (lawful.sparing.mild ((safe expected).2.1.spares t task)).status
    | call a k => exact .inl rfl
    | pause k =>
      cases x.owner with
      | none => exact .inl (congrArg Future.status (World.get_alloc_kind _ (by decide)))
      | some s => exact .inl rfl
    | await f k =>
      left
      rcases Protocol.outcome?_eq m f with ⟨o, v, yields, asked⟩ | ⟨waiting, asked⟩
      · simp only [asked]
        rw [Protocol.get_yields yields]
      · simp only [asked]
        cases owner : x.owner with
        | none => exact congrArg Future.status (World.get_alloc_kind _ (by decide))
        | some s =>
          by_cases own : s = f
          · subst own
            simp only [decide_true, Bool.or_true, if_true]
            exact congrArg Future.status (World.get_alloc_kind _ (by decide))
          · rw [if_neg (by simp [own])]
            have active := lawful.sparing.active (good.runs x s focus owner).1
            have parked := World.parked_awaiting waiting active own
            change ((m.world.awaiting s f).heap.get t).status = _
            by_cases same : t = s
            · subst same
              rw [parked.status, active.1]
            · exact (parked.mild t same task).status
  · next idle =>
    split at next
    · cases next
    · obtain rfl := Option.some.inj next
      exact (Machine.status_carryOut task _ _).imp_right .inl

/-- What a protocol keeps to at every change holds in all states of a run. -/
theorem Protocol.always {P : Protocol} {K : World → Prop} {start m : Machine} (lawful : P.Lawful)
    (good : P.Good start)
    (ground : ∀ {m}, Machine.Run P.body P.conduct start m → m.focus = none → P.ground m.world)
    (inv : ∀ {w}, P.inv w → K w) (move : ∀ {a w v}, P.move a w v → K v)
    (failure : ∀ {w : World} {f : Fault}, f.isCircular = false → K w → K (w.alloc .failure f))
    (resumed : ∀ {w : World} {t jobs}, K w → K (w.resumed t jobs)) (first : start.focus = none)
    (run : Machine.Run P.body P.conduct start m) : K m.world := by
  induction run with
  | start => exact inv (good.idle first).1
  | visit _ _ _ ih => exact ih
  | @step m n run observed next ih =>
    have here := Protocol.good_run lawful good ground run
    have there := here.step lawful (ground run) observed next
    have settled (idle : n.focus = none) : K n.world := inv (there.idle idle).1
    unfold Machine.step at next
    split at next
    · next x focus =>
      obtain rfl := Option.some.inj next
      rcases Machine.changed_advance m P.body x with idle | changed
      · exact settled idle
      · generalize (m.advance P.body x).world = v at changed
        cases changed with
        | same => exact ih
        | failure straight => exact failure straight ih
        | write code =>
          obtain ⟨Q, safe, -⟩ := here.safe x focus
          have expected := observed x focus
          rw [code] at safe expected
          exact move (safe expected).1
    · next focus =>
      split at next
      · cases next
      · next ready =>
        obtain rfl := Option.some.inj next
        rcases @Machine.wakened_carryOut P.body m _ _ focus with idle | ⟨u, t, same, is⟩
        · exact settled idle
        · have before : K u := by
            rcases is with rfl | rfl
            · exact ih
            · exact failure rfl ih
          rcases same with same | same
          · exact same ▸ resumed before
          · exact same ▸ failure rfl (resumed before)

end AsyncImport
