import AsyncImport.Proofs.Turns

/-!
# What will be woken

In a world that is wired up, everything that is not done has something that will let it go on: a job
in the queue, or a future that sets it off when it is done. So when the queue is empty, everything
that is not done waits for something that is not done.
-/

namespace AsyncImport.World

variable {w u v : World}

def Pending (w : World) (r : Reaction) (f : Ref .future) : Prop :=
  ((w.heap.get f).status = .waiting ∧ r ∈ (w.heap.get f).reactions) ∨
    ((w.heap.get f).status ≠ .waiting ∧ .react r f ∈ w.ready)

/-- A task that is not running is queued, or will be woken by what it waits for. -/
def Due (w : World) (t : Ref .future) : Prop :=
  ((w.heap.get t).waitsFor? = none ∧ .step t ∈ w.ready) ∨
    ∃ f, (w.heap.get t).waitsFor? = some f ∧ w.Pending (.wake t) f

def Gathers (w : World) (g : Ref .future) : Prop :=
  ∃ members missing cancelling, (w.heap.get g).origin = .group members missing cancelling ∧
    0 < missing ∧ ∃ left : List (Ref .future), left.Nodup ∧ missing ≤ left.length ∧
      ∀ f ∈ left, f ∈ members ∧ w.Pending (.tell g) f

structure Wired (w : World) : Prop where
  tasks : ∀ t, w.task? t ≠ none → w.current ≠ some t → w.Due t
  others : ∀ f : Ref .future, w.heap.Live f → (w.heap.get f).status = .waiting → w.task? f = none →
    w.Gathers f
  causes : ∀ {r : Reaction} {f : Ref .future}, .react r f ∈ w.ready →
    (w.heap.get f).status ≠ .waiting

theorem Pending.mono {f : Ref .future} {r : Reaction} (spares : Spares f w v)
    (kept : ∀ r ∈ (w.heap.get f).reactions, r ∈ (v.heap.get f).reactions)
    (ready : ∀ j ∈ w.ready, j ∈ v.ready) (pending : w.Pending r f) : v.Pending r f := by
  unfold Pending
  rw [spares.status]
  exact pending.imp (And.imp_right (kept r)) (And.imp_right (ready _))

structure Grows (w v : World) : Prop where
  spares : ∀ f : Ref .future, w.heap.Live f → Spares f w v
  reactions : ∀ f : Ref .future, w.heap.Live f →
    ∀ r ∈ (w.heap.get f).reactions, r ∈ (v.heap.get f).reactions
  ready : ∀ j ∈ w.ready, j ∈ v.ready
  causes : ∀ {r : Reaction} {f : Ref .future}, .react r f ∈ v.ready →
    .react r f ∈ w.ready ∨ (v.heap.get f).status ≠ .waiting
  current : v.current = w.current

theorem Pending.live {f : Ref .future} {r : Reaction} (pending : w.Pending r f) : w.heap.Live f := by
  by_contra dead
  unfold Pending at pending
  rw [Heap.get_not_live dead] at pending
  rcases pending with ⟨_, mem⟩ | ⟨done, _⟩
  · cases mem
  · exact done rfl

namespace Grows

theorem refl (w : World) : Grows w w :=
  ⟨fun f _ => .refl f w, fun _ _ _ h => h, fun _ h => h, .inl, rfl⟩

theorem pending (grows : Grows w v) {f : Ref .future} {r : Reaction} (pending : w.Pending r f) :
    v.Pending r f :=
  pending.mono (grows.spares f pending.live) (grows.reactions f pending.live) grows.ready

theorem due (grows : Grows w v) {t : Ref .future} (live : w.heap.Live t) (due : w.Due t) :
    v.Due t := by
  unfold Due
  rw [(grows.spares t live).waitsFor?]
  exact due.imp (And.imp_right (grows.ready _)) fun ⟨f, waits, pending⟩ =>
    ⟨f, waits, grows.pending pending⟩

theorem gathers (grows : Grows w v) {g : Ref .future} (live : w.heap.Live g)
    (gathers : w.Gathers g) : v.Gathers g := by
  obtain ⟨members, missing, cancelling, origin, some, left, distinct, enough, each⟩ := gathers
  exact ⟨members, missing, cancelling, (grows.spares g live).origin.trans origin, some, left,
    distinct, enough, fun f mem => ⟨(each f mem).1, grows.pending (each f mem).2⟩⟩

theorem done (grows : Grows w v) {f : Ref .future} (done : (w.heap.get f).status ≠ .waiting) :
    (v.heap.get f).status ≠ .waiting := by
  by_cases live : w.heap.Live f
  · rwa [(grows.spares f live).status]
  · rw [Heap.get_not_live live] at done
    exact absurd rfl done

theorem wired (grows : Grows w v)
    (tasks : ∀ t, ¬ w.heap.Live t → v.task? t ≠ none → v.Due t)
    (others : ∀ f : Ref .future, ¬ w.heap.Live f → v.heap.Live f →
      (v.heap.get f).status = .waiting → v.task? f = none → v.Gathers f)
    (wired : w.Wired) : v.Wired where
  tasks t task other := by
    by_cases live : w.heap.Live t
    · rw [(grows.spares t live).task?] at task
      exact grows.due live (wired.tasks t task (grows.current ▸ other))
    · exact tasks t live task
  others f live waiting none := by
    by_cases old : w.heap.Live f
    · have spares := grows.spares f old
      exact grows.gathers old
        (wired.others f old (spares.status ▸ waiting) (spares.task? ▸ none))
    · exact others f old live waiting none
  causes mem := (grows.causes mem).elim (fun old => grows.done (wired.causes old)) id

end Grows

theorem Still.wired (still : w.Still v) : w.Wired → v.Wired := by
  have same (f : Ref .future) (live : w.heap.Live f) : v.heap.get f = w.heap.get f :=
    still.rests f live
  have grows : Grows w v :=
    { spares := fun f live => .ofGet (same f live)
      reactions := fun f live r mem => by rwa [same f live]
      ready := fun j mem => by rwa [still.ready]
      causes := fun mem => .inl (still.ready ▸ mem)
      current := still.current }
  refine grows.wired (fun t dead task => ?_) fun f dead live waiting => ?_
  · obtain ⟨a, task⟩ := Option.ne_none_iff_exists'.mp task
    exact absurd (task?_eq_some.mp task).1 (still.fresh t dead (task?_live (by simp [task]))).1
  · exact absurd waiting (still.fresh f dead live).1

theorem wired_of_futures (futures : v.heap.table .future = w.heap.table .future)
    (ready : v.ready = w.ready) (current : v.current = w.current) : w.Wired → v.Wired := by
  have same (f : Ref .future) : v.heap.get f = w.heap.get f := by
    unfold Heap.get
    rw [futures]
  have lives (f : Ref .future) : v.heap.Live f ↔ w.heap.Live f := by
    unfold Heap.Live
    rw [futures]
  have grows : Grows w v :=
    { spares := fun f _ => .ofGet (same f)
      reactions := fun f _ r mem => by rwa [same f]
      ready := fun j mem => by rwa [ready]
      causes := fun mem => .inl (ready ▸ mem)
      current := current }
  refine grows.wired (fun t dead task => ?_) fun f dead live => absurd ((lives f).mp live) dead
  exact absurd ((lives t).mp (task?_live task)) dead

theorem wired_set {k : Kind} (r : Ref k) (c : Cell k) (ne : .future ≠ k) :
    w.Wired → (w.set r c).Wired :=
  wired_of_futures (Heap.table_setTable_ne w.heap _ ne) rfl rfl

/-! ## What the scheduler does -/

theorem Due.mono {t : Ref .future} (waits : (v.heap.get t).waitsFor? = (w.heap.get t).waitsFor?)
    (steps : .step t ∈ w.ready → .step t ∈ v.ready)
    (pending : ∀ f, w.Pending (.wake t) f → v.Pending (.wake t) f) (due : w.Due t) : v.Due t := by
  unfold Due
  rw [waits]
  exact due.imp (And.imp_right steps) fun ⟨f, for_, before⟩ => ⟨f, for_, pending f before⟩

theorem Gathers.mono {g : Ref .future} (origin : (v.heap.get g).origin = (w.heap.get g).origin)
    (pending : ∀ f, w.Pending (.tell g) f → v.Pending (.tell g) f) (gathers : w.Gathers g) :
    v.Gathers g := by
  obtain ⟨members, missing, cancelling, is, some, left, distinct, enough, each⟩ := gathers
  exact ⟨members, missing, cancelling, origin.trans is, some, left, distinct, enough,
    fun f mem => ⟨(each f mem).1, pending f (each f mem).2⟩⟩

theorem wired_taken {j : Job} {jobs : List Job} {c : Option (Ref .future)} (wired : w.Wired)
    (idle : w.current = none) (ready : w.ready = j :: jobs) (told : ∀ g f, j ≠ .react (.tell g) f)
    (others : ∀ t, w.task? t ≠ none → c ≠ some t →
      ((w.heap.get t).waitsFor? = none → j ≠ .step t) ∧
        ∀ f, (w.heap.get t).waitsFor? = some f → j ≠ .react (.wake t) f) :
    ({ w with ready := jobs, current := c } : World).Wired where
  tasks t task other := by
    have due := wired.tasks t task (by simp [idle])
    obtain ⟨step, wake⟩ := others t task other
    rcases due with ⟨free, queued⟩ | ⟨f, waits, pending⟩
    · rw [ready] at queued
      exact .inl ⟨free, (List.mem_cons.mp queued).resolve_left fun same => step free same.symm⟩
    · refine .inr ⟨f, waits, pending.imp_right fun ⟨done, queued⟩ => ⟨done, ?_⟩⟩
      rw [ready] at queued
      exact (List.mem_cons.mp queued).resolve_left fun same => wake f waits same.symm
  others g live waiting none := by
    refine Gathers.mono (w := w) rfl (fun f pending => ?_) (wired.others g live waiting none)
    refine pending.imp_right fun ⟨done, queued⟩ => ⟨done, ?_⟩
    rw [ready] at queued
    exact (List.mem_cons.mp queued).resolve_left fun same => told g f same.symm
  causes mem := wired.causes (ready ▸ List.mem_cons_of_mem _ mem)

theorem wired_idle {j : Job} {jobs : List Job} (wired : w.Wired) (idle : w.current = none)
    (ready : w.ready = j :: jobs) (nothing : w.Idle j) :
    ({ w with ready := jobs } : World).Wired := by
  have taken := wired_taken (c := none) wired idle ready ?_ fun t task _ => ⟨?_, ?_⟩
  · rwa [← idle] at taken
  · rintro g f rfl
    exact nothing
  · rintro free rfl
    exact nothing.elim task fun waits => waits free
  · rintro f waits rfl
    rcases nothing with none | other | undone
    · exact task none
    · exact other waits
    · exact wired.causes (ready ▸ List.mem_cons_self) undone

theorem wired_goOn {t : Ref .future} (wired : w.Wired) (own : w.current = some t)
    (task : w.task? t ≠ none) : (w.set t (w.heap.get t).goOn).Wired := by
  have live := task?_live task
  have get (s : Ref .future) : (w.set t (w.heap.get t).goOn).heap.get s =
      if s = t then (w.heap.get t).goOn else w.heap.get s := get_set t s _ live
  have status (s : Ref .future) :
      ((w.set t (w.heap.get t).goOn).heap.get s).status = (w.heap.get s).status := by
    rw [get]
    split
    · next same =>
      subst same
      unfold Future.goOn
      split <;> rfl
    · rfl
  have pending {r : Reaction} {f : Ref .future} (before : w.Pending r f) :
      (w.set t (w.heap.get t).goOn).Pending r f := by
    unfold Pending
    rw [status]
    refine before.imp_left (And.imp_right fun mem => ?_)
    rw [get]
    split
    · next same =>
      subst same
      unfold Future.goOn
      split <;> exact mem
    · exact mem
  have apart (s : Ref .future) (other : s ≠ t) :
      (w.set t (w.heap.get t).goOn).heap.get s = w.heap.get s := by rw [get, if_neg other]
  refine ⟨fun s task' other => ?_, fun g live' waiting none => ?_, fun mem => ?_⟩
  · have ne : s ≠ t := fun same => other (same ▸ own)
    refine Due.mono (w := w) (by rw [apart s ne]) id (fun f => pending) (wired.tasks s ?_ other)
    rwa [← (Spares.ofGet (apart s ne)).task?]
  · have ne : g ≠ t := by
      rintro rfl
      have turns := Turns.setFuture w g _ (follows_goOn _)
      obtain ⟨a, task⟩ := Option.ne_none_iff_exists'.mp task
      rw [turns.evolves.task?_some task waiting] at none
      cases none
    refine Gathers.mono (w := w) (by rw [apart g ne]) (fun f => pending)
      (wired.others g (live_set.mp live') (status g ▸ waiting) ?_)
    rwa [← (Spares.ofGet (apart g ne)).task?]
  · rw [status]
    exact wired.causes mem

theorem wired_resumed {j : Job} {jobs : List Job} {t : Ref .future} (wired : w.Wired)
    (idle : w.current = none) (ready : w.ready = j :: jobs) (task : w.task? t ≠ none)
    (due : j = .step t ∨ ∃ f, j = .react (.wake t) f) : (w.resumed t jobs).Wired := by
  have taken := wired_taken (c := some t) wired idle ready ?_ fun s _ other => ⟨?_, ?_⟩
  · exact wired_goOn taken rfl task
  · rintro g f rfl
    rcases due with due | ⟨_, due⟩ <;> cases due
  · rintro - rfl
    rcases due with due | ⟨_, due⟩ <;> cases due
    exact other rfl
  · rintro f - rfl
    rcases due with due | ⟨_, due⟩ <;> cases due
    exact other rfl

theorem wired_paused {t : Ref .future} (wired : w.Wired) (own : w.current = some t)
    (runs : w.Runs t) : (w.paused t).Wired := by
  have pending {r : Reaction} {f : Ref .future} (before : w.Pending r f) : (w.paused t).Pending r f :=
    before.imp_right (And.imp_right (List.mem_append_left _))
  refine ⟨fun s task _ => ?_, fun g live waiting none => ?_, fun mem => ?_⟩
  · by_cases same : s = t
    · subst same
      obtain ⟨-, a, origin⟩ := runs
      exact .inl ⟨by simp [Future.waitsFor?, paused, origin],
        List.mem_append_right _ (List.mem_singleton.mpr rfl)⟩
    · have other : w.current ≠ some s := fun is => same (Option.some.inj (is.symm.trans own))
      exact Due.mono (w := w) rfl (List.mem_append_left _) (fun f => pending)
        (wired.tasks s task other)
  · exact Gathers.mono (w := w) rfl (fun f => pending) (wired.others g live waiting none)
  · rcases List.mem_append.mp mem with old | new
    · exact wired.causes old
    · cases List.mem_singleton.mp new

theorem wired_awaiting {t f : Ref .future} (wired : w.Wired) (own : w.current = some t)
    (runs : w.Runs t) (live : w.heap.Live f) (waiting : (w.heap.get f).status = .waiting)
    (ne : t ≠ f) : (w.awaiting t f).Wired := by
  have lives := task?_live runs.task?
  have spares {s : Ref .future} (other : s ≠ t) := spares_awaiting waiting runs ne other
  obtain ⟨undone, a, origin⟩ := runs
  have get (s : Ref .future) : (w.awaiting t f).heap.get s =
      if s = t then { w.heap.get t with origin := .task a (some f) false }
      else if s = f then { w.heap.get f with reactions := (w.heap.get f).reactions ++ [.wake t] }
      else w.heap.get s := by
    rw [awaiting_eq waiting origin ne]
    show ((w.set f _).set t _).heap.get s = _
    rw [get_set _ _ _ (live_set.mpr lives), get_set f s _ live]
  have ready : (w.awaiting t f).ready = w.ready := by rw [awaiting_eq waiting origin ne]; rfl
  have status (s : Ref .future) :
      ((w.awaiting t f).heap.get s).status = (w.heap.get s).status := by
    rw [get]
    split
    · next same => rw [same]
    · split
      · next same => rw [same]
      · rfl
  have pending {r : Reaction} {g : Ref .future} (before : w.Pending r g) :
      (w.awaiting t f).Pending r g := by
    unfold Pending
    rw [status, ready]
    refine before.imp_left (And.imp_right fun mem => ?_)
    rw [get]
    split
    · next same => exact same ▸ mem
    · split
      · next same => exact List.mem_append_left _ (same ▸ mem)
      · exact mem
  refine ⟨fun s task _ => ?_, fun g live' waiting' none => ?_, fun mem => ?_⟩
  · by_cases same : s = t
    · subst same
      refine .inr ⟨f, by rw [get, if_pos rfl]; rfl, .inl ⟨(status f).trans waiting, ?_⟩⟩
      rw [get, if_neg (Ne.symm ne), if_pos rfl]
      exact List.mem_append_right _ (List.mem_singleton.mpr rfl)
    · have other : w.current ≠ some s := fun is => same (Option.some.inj (is.symm.trans own))
      rw [(spares same).task?] at task
      exact Due.mono (w := w) (spares same).waitsFor? (by rw [ready]; exact id) (fun _ => pending)
        (wired.tasks s task other)
  · have other : g ≠ t := by
      rintro rfl
      simp [task?, undone, get, Future.activity?] at none
    have before : w.heap.Live g := by
      rw [awaiting_eq waiting origin ne] at live'
      exact live_set.mp (live_set.mp live')
    exact Gathers.mono (w := w) (spares other).origin (fun _ => pending)
      (wired.others g before (status g ▸ waiting') ((spares other).task? ▸ none))
  · rw [status]
    exact wired.causes (ready ▸ mem)

structure WiredBut (w : World) (f : Ref .future) : Prop where
  tasks : ∀ t, t ≠ f → w.task? t ≠ none → w.current ≠ some t → w.Due t
  others : ∀ g : Ref .future, g ≠ f → w.heap.Live g → (w.heap.get g).status = .waiting →
    w.task? g = none → w.Gathers g
  causes : ∀ {r : Reaction} {g : Ref .future}, .react r g ∈ w.ready →
    (w.heap.get g).status ≠ .waiting

theorem WiredBut.done {f : Ref .future} (wired : w.WiredBut f)
    (done : (w.heap.get f).status ≠ .waiting) : w.Wired where
  tasks t task other := by
    refine wired.tasks t ?_ task other
    rintro rfl
    obtain ⟨a, task⟩ := Option.ne_none_iff_exists'.mp task
    exact done (task?_eq_some.mp task).1
  others g live waiting none := wired.others g (fun same => done (same ▸ waiting)) live waiting none
  causes := wired.causes

theorem WiredBut.alloc {f : Ref .future} (wired : w.WiredBut f) (k : Kind) (c : Cell k)
    (ne : .future ≠ k) : (w.alloc k c).WiredBut f := by
  have get (g : Ref .future) : (w.alloc k c).heap.get g = w.heap.get g := get_alloc_kind c ne
  have pending {r : Reaction} {g : Ref .future} (before : w.Pending r g) :
      (w.alloc k c).Pending r g := by
    unfold Pending
    rw [get]
    exact before
  refine ⟨fun t apart task other => ?_, fun g apart live waiting none => ?_, fun mem => ?_⟩
  · rw [(Spares.ofGet (get t)).task?] at task
    exact Due.mono (w := w) (by rw [get]) id (fun _ => pending) (wired.tasks t apart task other)
  · rw [(Spares.ofGet (get g)).task?] at none
    rw [get] at waiting
    exact Gathers.mono (w := w) (by rw [get]) (fun _ => pending)
      (wired.others g apart ((live_alloc_kind ne).mp live) waiting none)
  · rw [get]
    exact wired.causes mem

theorem WiredBut.complete {f : Ref .future} (wired : w.WiredBut f) (live : w.heap.Live f)
    {s : Status} (finished : s ≠ .waiting) : (Edit.complete f s w).2.Wired := by
  rw [Edit.run_complete]
  by_cases done : (w.heap.get f).status.isDone
  · rw [if_pos done]
    exact wired.done (by simpa [Status.isDone] using done)
  rw [if_neg done]
  have undone : (w.heap.get f).status = .waiting := by simpa [Status.isDone] using done
  let v : World := { w.set f { w.heap.get f with status := s, reactions := [] } with
    ready := w.ready ++ (w.heap.get f).reactions.map fun r => .react r f }
  show v.Wired
  have apart (g : Ref .future) (ne : g ≠ f) : v.heap.get g = w.heap.get g := get_set_ne (k := .future) _ ne
  have is : v.heap.get f = { w.heap.get f with status := s, reactions := [] } :=
    (get_set f f { w.heap.get f with status := s, reactions := [] } live).trans (if_pos rfl)
  have finished : (v.heap.get f).status ≠ .waiting := by rw [is]; exact finished
  have pending {r : Reaction} {g : Ref .future} (before : w.Pending r g) : v.Pending r g := by
    by_cases ne : g = f
    · subst ne
      rcases before with ⟨-, mem⟩ | ⟨done', -⟩
      · exact .inr ⟨finished, List.mem_append_right _ (List.mem_map_of_mem mem)⟩
      · exact absurd undone done'
    · unfold Pending
      rw [apart g ne]
      exact before.imp_right (And.imp_right (List.mem_append_left _))
  refine WiredBut.done (f := f) ⟨fun t ne task other => ?_, fun g ne live' waiting none => ?_, fun mem => ?_⟩
    finished
  · rw [(Spares.ofGet (apart t ne)).task?] at task
    exact Due.mono (w := w) (by rw [apart t ne]) (List.mem_append_left _) (fun _ => pending)
      (wired.tasks t ne task other)
  · rw [(Spares.ofGet (apart g ne)).task?] at none
    rw [apart g ne] at waiting
    exact Gathers.mono (w := w) (by rw [apart g ne]) (fun _ => pending)
      (wired.others g ne (live_set.mp live') waiting none)
  · rcases List.mem_append.mp mem with old | new
    · have before := wired.causes old
      rwa [apart _ (by rintro rfl; exact before undone)]
    · obtain ⟨_, _, same⟩ := List.mem_map.mp new
      cases same
      exact finished

theorem wired_ended {t : Ref .future} (wired : w.Wired) (own : w.current = some t)
    (live : w.heap.Live t) (o : Outcome) : (w.ended t o).Wired := by
  rw [ended_eq]
  refine WiredBut.complete (w := { w with current := none }) (f := t)
    ⟨fun s ne task _ => ?_, fun g _ => wired.others g, wired.causes⟩ live (endStatus_ne_waiting w t o)
  exact wired.tasks s task fun same => ne (Option.some.inj (same.symm.trans own))

theorem WiredBut.waits {g : Ref .future} (but : w.WiredBut g) (unborn : w.task? g = none)
    (gathers : w.Gathers g) : w.Wired where
  tasks t task other := by
    refine but.tasks t ?_ task other
    rintro rfl
    exact task unborn
  others h live waiting none := by
    by_cases same : h = g
    · exact same ▸ gathers
    · exact but.others h same live waiting none
  causes := but.causes

/-- A group that counts a report ends, or waits for the members that are still to report. -/
theorem WiredBut.follow {g f : Ref .future} {members : List (Ref .future)} {n : Nat} {cancelling : Bool}
    (but : w.WiredBut g) (live : w.heap.Live g) (ended : (w.heap.get f).status ≠ .waiting)
    (unborn : w.task? g = none) (gathers : n ≠ 0 → w.Gathers g) :
    (Edit.follow g f members n cancelling w).2.Wired := by
  have failing (c : Fault) : (Edit.complete g (.failed (w.heap.fresh .failure)) (w.alloc .failure c)).2.Wired :=
    (but.alloc .failure c (by decide)).complete ((live_alloc_kind (by decide)).mpr live) (by simp)
  unfold Edit.follow
  cases outcome : (w.heap.get f).status with
  | waiting => exact absurd outcome ended
  | failed e => simpa [Edit.run_bind, outcome] using but.complete live (by simp)
  | cancelled => simpa [Edit.run_bind, outcome] using failing .cancelled
  | done x =>
    by_cases last : n = 0
    · cases cancelling with
      | true => simpa [last, Edit.run_bind, outcome] using failing .cancelled
      | false =>
        cases results : w.results? members with
        | none =>
          simpa [last, Edit.run_bind, outcome, run_results, results] using
            failing (Refusal.plain .runtime).fault
        | some vs =>
          have made := but.alloc .list vs (by decide)
          simpa [last, Edit.run_bind, outcome, run_results, results] using
            made.complete ((live_alloc_kind (by decide)).mpr live) (by simp)
    · simpa [last, Edit.run_bind, outcome] using but.waits unborn (gathers last)

theorem wired_report {g f : Ref .future} {jobs : List Job} (wired : w.Wired)
    (idle : w.current = none) (ready : w.ready = .react (.tell g) f :: jobs) :
    (Edit.report g f { w with ready := jobs }).2.Wired := by
  let u : World := { w with ready := jobs }
  have finished : (w.heap.get f).status ≠ .waiting := wired.causes (ready ▸ List.mem_cons_self)
  have kept {j : Job} (other : j ≠ .react (.tell g) f) (mem : j ∈ w.ready) : j ∈ u.ready :=
    (List.mem_cons.mp (ready ▸ mem)).resolve_left other
  have pending {r : Reaction} {h : Ref .future} (other : r ≠ .tell g ∨ h ≠ f)
      (before : w.Pending r h) : u.Pending r h := by
    refine before.imp_right (And.imp_right (kept ?_))
    rintro ⟨⟩
    rcases other with other | other <;> exact other rfl
  have due (t : Ref .future) (task : w.task? t ≠ none) : u.Due t :=
    Due.mono (w := w) rfl (kept (by simp)) (fun _ => pending (.inl (by simp)))
      (wired.tasks t task (by simp [idle]))
  have gathers (h : Ref .future) (other : h ≠ g) (before : w.Gathers h) : u.Gathers h :=
    Gathers.mono (w := w) rfl (fun _ => pending (.inl (by simpa using other))) before
  have causes {r : Reaction} {h : Ref .future} (mem : .react r h ∈ u.ready) :
      (u.heap.get h).status ≠ .waiting := wired.causes (ready ▸ List.mem_cons_of_mem _ mem)
  show (Edit.report g f u).2.Wired
  cases origin : (u.heap.get g).origin with
  | plain | task =>
    rw [report_none (by simp [Future.members?, origin])]
    refine ⟨fun t task _ => due t task, fun h live waiting none => ?_, causes⟩
    have before := wired.others h live waiting none
    refine gathers h ?_ before
    rintro rfl
    obtain ⟨_, _, _, is, _⟩ := before
    cases is.symm.trans origin
  | group members missing cancelling =>
    have live : u.heap.Live g := by
      by_contra dead
      rw [Heap.get_not_live dead] at origin
      cases origin
    let v : World := u.set g { u.heap.get g with origin := .group members (missing - 1) cancelling }
    have is : v.heap.get g = { u.heap.get g with origin := .group members (missing - 1) cancelling } :=
      (get_set g g _ live).trans (if_pos rfl)
    have apart (h : Ref .future) (ne : h ≠ g) : v.heap.get h = u.heap.get h :=
      get_set_ne (k := .future) _ ne
    have status (h : Ref .future) : (v.heap.get h).status = (u.heap.get h).status := by
      by_cases same : h = g
      · rw [same, is]
      · rw [apart h same]
    have counted {r : Reaction} {h : Ref .future} (before : u.Pending r h) : v.Pending r h := by
      unfold Pending
      rw [status]
      refine before.imp_left (And.imp_right fun mem => ?_)
      by_cases same : h = g
      · rw [same] at mem ⊢
        rwa [is]
      · rwa [apart h same]
    -- the count of `g` is one report ahead of what follows; everything else is wired up
    have but : v.WiredBut g := by
      refine ⟨fun t ne task _ => ?_, fun h ne live' waiting none => ?_, fun mem => ?_⟩
      · rw [(Spares.ofGet (apart t ne)).task?] at task
        exact Due.mono (w := u) (by rw [apart t ne]) id (fun _ => counted) (due t task)
      · rw [(Spares.ofGet (apart h ne)).task?] at none
        exact Gathers.mono (w := u) (by rw [apart h ne]) (fun _ => counted)
          (gathers h ne (wired.others h (live_set.mp live') (status h ▸ waiting) none))
      · rw [status]
        exact causes mem
    have run : (Edit.report g f u).2 = if (u.heap.get g).status.isDone then v
        else (Edit.follow g f members (missing - 1) cancelling v).2 := by
      unfold Edit.report Edit.setGroup
      split <;> simp_all [Edit.run_bind, v]
    rw [run]
    split
    · next done =>
      exact but.done (by rw [status]; simpa [Status.isDone] using done)
    next undone =>
    have waiting : (u.heap.get g).status = .waiting := by simpa [Status.isDone] using undone
    have live' : v.heap.Live g := live_set.mpr live
    have ended : (v.heap.get f).status ≠ .waiting := by
      rw [status]
      exact finished
    have unborn : v.task? g = none := by
      unfold task? Future.activity?
      rw [is]
      simp
    refine but.follow live' ended unborn fun more => ?_
    obtain ⟨ms, n, c, before, some, left, distinct, enough, each⟩ := wired.others g live waiting
      (by unfold task? Future.activity?; rw [show (w.heap.get g).origin = _ from origin]; simp)
    obtain ⟨rfl, rfl, rfl⟩ : ms = members ∧ n = missing ∧ c = cancelling := by
      simpa using before.symm.trans origin
    -- each member reports once, so `f` leaves the members that will still report
    refine ⟨ms, n - 1, c, by rw [is], Nat.pos_of_ne_zero more, left.erase f,
      distinct.erase f, ?_, fun h mem => ?_⟩
    · exact Nat.le_trans (Nat.sub_le_sub_right enough 1) List.le_length_erase
    · have old := List.mem_of_mem_erase mem
      have other : h ≠ f := fun same => (List.Nodup.not_mem_erase distinct) (same ▸ mem)
      exact ⟨(each h old).1, counted (pending (.inr other) (each h old).2)⟩

end AsyncImport.World
