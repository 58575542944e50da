import AsyncImport.Proofs.Cancelling
import AsyncImport.Proofs.Groups

/-!
# What groups know of their members

A group has a result only when all of its members have one. `World.Reckons` says of two moments that what
was done stays as it was, and that every group which has come to a result since has a right to it; each
edit of futures and each turn of the scheduler is shown to be such a step.
-/

namespace AsyncImport.World

variable {u v w : World}

def Valued (w : World) (f : Ref .future) : Prop := ∃ x, (w.heap.get f).status = .done x

structure Tallied (w : World) : Prop where
  valued : ∀ {g : Ref .future} {members x}, (w.heap.get g).members? = some members →
    (w.heap.get g).status = .done x → ∀ f ∈ members, w.Valued f

/-- What has become of futures stays, and a group gets a result only with members that have one. -/
structure Reckons (w v : World) : Prop where
  live : ∀ f : Ref .future, w.heap.Live f → v.heap.Live f
  follows : ∀ f : Ref .future, w.heap.Live f → Future.Follows (w.heap.get f) (v.heap.get f)
  groups : ∀ {g : Ref .future} {members x}, (v.heap.get g).members? = some members →
    (v.heap.get g).status = .done x → (w.heap.get g).status = .done x ∨ ∀ f ∈ members, v.Valued f

theorem Valued.live {f : Ref .future} (valued : w.Valued f) : w.heap.Live f := by
  by_contra dead
  obtain ⟨x, status⟩ := valued
  rw [Heap.get_not_live dead] at status
  cases status

theorem Valued.mono {f : Ref .future} (reckons : w.Reckons v) (valued : w.Valued f) : v.Valued f := by
  have follows := reckons.follows f valued.live
  obtain ⟨x, status⟩ := valued
  exact ⟨x, (follows.status (by simp [status])).trans status⟩

theorem Endures.reckons (endures : w.Endures v)
    (groups : ∀ {g : Ref .future} {members x}, (v.heap.get g).members? = some members →
      (v.heap.get g).status = .done x → (w.heap.get g).status = .done x ∨ ∀ f ∈ members, v.Valued f) :
    w.Reckons v :=
  ⟨fun _ => endures.live, endures.futures, groups⟩

namespace Reckons

theorem refl (w : World) : w.Reckons w := ⟨fun _ => id, fun _ _ => .refl _, fun _ => .inl⟩

theorem trans (first : u.Reckons w) (next : w.Reckons v) : u.Reckons v where
  live f live := next.live f (first.live f live)
  follows f live := (first.follows f live).trans (next.follows f (first.live f live))
  groups {g members x} is done := by
    rcases next.groups is done with before | valued
    · have known : (w.heap.get g).members? = some members :=
        (next.follows g (Valued.live ⟨x, before⟩)).members.symm.trans is
      exact (first.groups known before).imp_right fun valued f mem => (valued f mem).mono next
    · exact .inr valued

theorem ofGet (live : ∀ f : Ref .future, w.heap.Live f → v.heap.Live f)
    (same : ∀ f : Ref .future, v.heap.get f = w.heap.get f) : w.Reckons v :=
  ⟨live, fun f _ => same f ▸ .refl _, fun {g _ _} _ done => .inl (same g ▸ done)⟩

theorem ofHeapEq (heap : v.heap = w.heap) : w.Reckons v :=
  .ofGet (fun _ => heap ▸ id) fun _ => heap ▸ rfl

end Reckons

theorem Tallied.mono (tallied : w.Tallied) (reckons : w.Reckons v) : v.Tallied where
  valued {g members x} is done := by
    rcases reckons.groups is done with before | valued
    · have known : (w.heap.get g).members? = some members :=
        (reckons.follows g (Valued.live ⟨x, before⟩)).members.symm.trans is
      exact fun f mem => (tallied.valued known before f mem).mono reckons
    · exact valued

/-! ## Data, tasks and turns -/

theorem reckons_still (still : w.Still v)
    (plain : ∀ f : Ref .future, ¬ w.heap.Live f → (v.heap.get f).origin = .plain) : w.Reckons v := by
  refine still.evolves.endures.reckons fun {g members x} is done => .inl ?_
  by_cases live : w.heap.Live g
  · have same : v.heap.get g = w.heap.get g := still.rests g live
    rwa [same] at done
  · simp [Future.members?, plain g live] at is

theorem reckons_alloc (w : World) {c : Future} (members : c.members? = none) :
    w.Reckons (w.alloc .future c) := by
  refine (World.Evolves.alloc w .future c).endures.reckons fun {g ms x} is done => .inl ?_
  rw [get_alloc] at is done
  split at is
  · simp [members] at is
  · next old => rwa [if_neg old] at done

theorem reckons_spawned (w : World) (a : Activity) : w.Reckons (Site.spawned w a) :=
  (reckons_alloc w rfl).trans (.ofHeapEq rfl)

theorem reckons_resumed (w : World) (t : Ref .future) (jobs : List Job) : w.Reckons (w.resumed t jobs) :=
  (turns_resumed w t jobs).evolves.endures.reckons fun _ done => .inl (by rwa [status_resumed] at done)

theorem Parked.reckons {t f : Ref .future} (parked : Parked t f w v) : w.Reckons v :=
  parked.turns.evolves.endures.reckons fun _ done => .inl (parked.results done)

theorem reckons_ended {t : Ref .future} (o : Outcome) (task : w.task? t ≠ none) :
    w.Reckons (w.ended t o) := by
  refine (turns_ended w t o).evolves.endures.reckons fun {g members x} is done => .inl ?_
  by_cases own : g = t
  · subst own
    obtain ⟨a, task'⟩ := Option.ne_none_iff_exists'.mp task
    obtain ⟨_, _, origin⟩ := activity?_eq_some.mp (task?_eq_some.mp task').2
    rw [((turns_ended w g o).evolves.follows g (task?_live task)).members, Future.members?, origin] at is
    cases is
  · rwa [get_ended_ne w o own] at done

/-! ## Reports -/

theorem results?_valued {fs : List (Ref .future)} {vs : List Value} (results : w.results? fs = some vs) :
    ∀ f ∈ fs, w.Valued f := by
  induction fs generalizing vs with
  | nil => simp
  | cons f fs ih =>
    unfold results? at results ih
    rw [List.mapM_cons] at results
    cases first : (w.heap.get f).result? with
    | none => simp [first] at results
    | some x =>
      cases rest : fs.mapM (fun (f : Ref .future) => (w.heap.get f).result?) with
      | none => simp [first, rest] at results
      | some xs =>
        refine List.forall_mem_cons.mpr ⟨⟨x, ?_⟩, ih rest⟩
        unfold Future.result? at first
        split at first <;> cases first
        assumption

theorem reckons_complete {g : Ref .future} {s : Status}
    (valued : ∀ {members x}, (w.heap.get g).members? = some members → s = .done x →
      ∀ f ∈ members, w.Valued f) : w.Reckons (Edit.complete g s w).2 := by
  have turns := turns_completed w g s
  have plain : ∀ {h : Ref .future} {x}, h ≠ g → ((Edit.complete g s w).2.heap.get h).status = .done x →
      (w.heap.get h).status = .done x := fun other done => by rwa [get_completed_ne w s other] at done
  refine turns.evolves.endures.reckons fun {h members x} is done => ?_
  by_cases own : h = g
  · subst own
    rcases status_completed w h h s with kept | ended
    · exact .inl (kept ▸ done)
    · by_cases live : w.heap.Live h
      · have known : (w.heap.get h).members? = some members :=
          (turns.evolves.endures.futures h live).members.symm.trans is
        refine .inr fun f mem => ?_
        obtain ⟨y, status⟩ := valued known (ended.symm.trans done) f mem
        have follows := turns.evolves.endures.futures f (Valued.live ⟨y, status⟩)
        exact ⟨y, (follows.status (by simp [status])).trans status⟩
      · rw [Heap.get_not_live fun now => live (live_completed.mp now)] at done
        cases done
  · exact .inl (plain own done)

theorem reckons_follow {g f : Ref .future} {members : List (Ref .future)} {left : Nat}
    {cancelling : Bool} (is : (w.heap.get g).members? = some members) :
    w.Reckons (Edit.follow g f members left cancelling w).2 := by
  have failing (e : Fault) : w.Reckons (Edit.complete g (.failed (w.heap.fresh .failure))
      (w.alloc .failure e)).2 :=
    Reckons.trans (.ofGet (fun _ => (live_alloc_kind (by decide)).mpr) fun _ => get_alloc_kind _ (by decide))
      (reckons_complete (by simp))
  unfold Edit.follow
  cases status : (w.heap.get f).status with
  | waiting => simpa [Edit.run_bind, status] using Reckons.refl w
  | failed e =>
    have ends := reckons_complete (w := w) (g := g) (s := .failed e) (by simp)
    simpa [Edit.run_bind, status] using ends
  | cancelled => simpa [Edit.run_bind, status] using failing .cancelled
  | done x =>
    by_cases last : left = 0
    · cases cancelling with
      | true => simpa [last, Edit.run_bind, status] using failing .cancelled
      | false =>
        cases results : w.results? members with
        | none => simpa [last, Edit.run_bind, status, run_results, results] using failing (Refusal.plain .runtime).fault
        | some vs =>
          have same (h : Ref .future) : (w.alloc .list vs).heap.get h = w.heap.get h :=
            get_alloc_kind _ (by decide)
          have made : w.Reckons (w.alloc .list vs) := .ofGet (fun _ => (live_alloc_kind (by decide)).mpr) same
          have ends := made.trans (reckons_complete (g := g) (s := .done (.obj .list (w.heap.fresh .list)))
            fun {ms y} known _ h mem => by
              rw [same] at known
              obtain rfl := Option.some.inj (is.symm.trans known)
              exact (results?_valued results h mem).mono made)
          simpa [last, Edit.run_bind, status, run_results, results] using ends
    · simpa [last, Edit.run_bind, status] using Reckons.refl w

/-- A group takes note that one of its members is done. -/
theorem reckons_report (g f : Ref .future) (w : World) : w.Reckons (Edit.report g f w).2 := by
  cases origin : (w.heap.get g).origin with
  | plain | task =>
    rw [report_none (by simp [Future.members?, origin])]
    exact .refl w
  | group members missing cancelling =>
    have live : w.heap.Live g := by
      by_contra dead
      rw [Heap.get_not_live dead] at origin
      cases origin
    let c : Future := { w.heap.get g with origin := .group members (missing - 1) cancelling }
    have get : (w.set g c).heap.get g = c := (get_set g g _ live).trans (if_pos rfl)
    have evolves : w.Evolves (w.set g c) := .set w g c
      ⟨fun _ => rfl, by simp [c, Future.activity?, origin], by simp [c, Future.members?, origin]⟩
    have counted : w.Reckons (w.set g c) := by
      refine evolves.endures.reckons fun {h ms x} _ done => .inl ?_
      by_cases own : h = g
      · subst own
        rwa [get] at done
      · rwa [get_set_ne (k := .future) c own] at done
    have follow : w.Reckons (Edit.follow g f members (missing - 1) cancelling (w.set g c)).2 :=
      counted.trans (reckons_follow (by rw [get]; rfl))
    have run : (Edit.report g f w).2 = if (w.heap.get g).status.isDone then w.set g c
        else (Edit.follow g f members (missing - 1) cancelling (w.set g c)).2 := by
      unfold Edit.report Edit.setGroup
      split <;> simp_all [Edit.run_bind, c]
    rw [run]
    split
    · exact counted
    · exact follow

/-! ## New futures -/

/-- Futures are added: those that were there are as they were, but for what they will set off, and a new
one is undone unless nobody makes it. -/
structure Adds (w v : World) : Prop where
  live : ∀ f : Ref .future, w.heap.Live f → v.heap.Live f
  spares : ∀ f : Ref .future, w.heap.Live f → Spares f w v
  new : ∀ f : Ref .future, ¬ w.heap.Live f →
    (v.heap.get f).status = .waiting ∨ (v.heap.get f).origin = .plain

namespace Adds

variable {f : Ref .future}

theorem unborn (dead : ¬ w.heap.Live f) : (w.heap.get f).status = .waiting :=
  congrArg Future.status (Heap.get_not_live dead)

theorem refl (w : World) : w.Adds w := ⟨fun _ => id, fun f _ => .refl f w, fun _ dead => .inl (unborn dead)⟩

theorem trans (first : u.Adds w) (next : w.Adds v) : u.Adds v where
  live f live := next.live f (first.live f live)
  spares f live := (first.spares f live).trans (next.spares f (first.live f live))
  new f dead := by
    by_cases live : w.heap.Live f
    · have spares := next.spares f live
      rw [spares.status, spares.origin]
      exact first.new f dead
    · exact next.new f live

theorem ofGet (live : ∀ f : Ref .future, w.heap.Live f → v.heap.Live f)
    (same : ∀ f : Ref .future, v.heap.get f = w.heap.get f) : w.Adds v :=
  ⟨live, fun f _ => .ofGet (same f), fun f dead => .inl (by rw [same, unborn dead])⟩

theorem ofTable (table : v.heap.table .future = w.heap.table .future) : w.Adds v :=
  .ofGet (fun f live => by unfold Heap.Live at live ⊢; rwa [table]) fun f => by
    unfold Heap.get
    rw [table]

theorem alloc (w : World) {c : Future} (new : c.status = .waiting ∨ c.origin = .plain) :
    w.Adds (w.alloc .future c) where
  live _ live := live_alloc.mpr (.inl live)
  spares f live := .ofGet ((get_alloc f c).trans (if_neg (Heap.ne_fresh live)))
  new f dead := by
    rw [get_alloc]
    split
    · exact new
    · exact .inl (unborn dead)

theorem set (w : World) {c : Future} (status : c.status = (w.heap.get f).status)
    (origin : c.origin = (w.heap.get f).origin) : w.Adds (w.set f c) where
  live _ live := live_set.mpr live
  spares g live := by
    by_cases same : g = f
    · subst same
      have get : (w.set g c).heap.get g = c := (get_set _ _ _ live).trans (if_pos rfl)
      exact ⟨by rw [get, status], by rw [get, origin]⟩
    · exact .ofGet (get_set_ne _ same)
  new _ dead := .inl (unborn fun live => dead (live_set.mp live))

theorem setNew (adds : w.Adds v) {c : Future} (dead : ¬ w.heap.Live f) (status : c.status = .waiting) :
    w.Adds (v.set f c) where
  live g live := live_set.mpr (adds.live g live)
  spares g live := (adds.spares g live).trans
    (.ofGet (get_set_ne _ fun same => dead (same ▸ live)))
  new g old := by
    by_cases same : g = f
    · subst same
      by_cases live : v.heap.Live g
      · have get : (v.set g c).heap.get g = c := (get_set _ _ _ live).trans (if_pos rfl)
        exact .inl (by rw [get, status])
      · exact .inl (unborn fun now => live (live_set.mp now))
    · rw [get_set_ne _ same]
      exact adds.new g old

theorem reckons (adds : w.Adds v) : w.Reckons v where
  live := adds.live
  follows f live := by
    have spares := adds.spares f live
    exact ⟨fun _ => spares.status, by simp [Future.activity?, spares.origin],
      by simp [Future.members?, spares.origin]⟩
  groups {g members x} is done := .inl (by
    by_cases live : w.heap.Live g
    · rwa [(adds.spares g live).status] at done
    · rcases adds.new g live with waiting | plain
      · rw [waiting] at done
        cases done
      · simp [Future.members?, plain] at is)

end Adds

end AsyncImport.World

namespace AsyncImport.Edit

open World

variable {α β : Type} {u w v : World} {k : Kind}

/-- An edit does nothing to futures but to add some. -/
def Adds (e : Edit α) : Prop := ∀ w : World, w.Adds (e w).2

theorem adds_pure (x : α) : Adds (pure x : Edit α) := fun w => .refl w

theorem adds_throw (f : Fault) : Adds (throw f : Edit α) := fun w => .refl w

theorem adds_quiet (x : Quiet α) : Adds (liftM x : Edit α) := fun w =>
  .ofTable ((x.near w).table .future rfl)

theorem adds_bind {x : Edit α} {f : α → Edit β} (first : Adds x) (next : ∀ a, Adds (f a)) :
    Adds (x >>= f) := fun w => by
  have here := first w
  rw [run_bind]
  rcases run : x w with ⟨e | a, v⟩ <;> rw [run] at here
  · exact here
  · exact here.trans (next a v)

theorem adds_write (r : Ref k) (c : Cell k) (ne : k ≠ .future) : Adds (write r c) := fun _ =>
  .ofGet (fun _ => live_set.mpr) fun _ => get_set_kind _ (Ne.symm ne)

theorem adds_enqueue (j : Job) : Adds (enqueue j) := fun _ => .ofTable rfl

theorem adds_foldlM (xs : List α) {f : β → α → Edit β} (each : ∀ b x, Adds (f b x)) (b : β) :
    Adds (xs.foldlM f b) := by
  induction xs generalizing b with
  | nil => exact adds_pure _
  | cons x xs ih =>
    rw [List.foldlM_cons]
    exact adds_bind (each b x) ih

theorem Adds.after {e : Edit α} (adds : Adds e) (w : World) : w.Adds (e.after w).2 := by
  have here := adds w
  unfold Edit.after
  rcases run : e w with ⟨f | a, v⟩ <;> rw [run] at here
  · exact here.trans (.ofGet (fun _ => (live_alloc_kind (by decide)).mpr)
      fun _ => get_alloc_kind (k := .failure) _ (by decide))
  · exact here

/-! ## Tasks and groups -/

theorem adds_create (c : Future) (new : c.status = .waiting ∨ c.origin = .plain) :
    Adds (create .future c) := fun w => .alloc w new

theorem adds_spawn (a : Activity) : Adds (spawn a) :=
  adds_bind (adds_create _ (.inl rfl)) fun _ => adds_bind (adds_enqueue _) fun _ => adds_pure _

theorem adds_resolved (x : Value) : Adds (resolved x) := adds_create _ (.inr rfl)

theorem adds_asFuture (x : Value) : Adds (asFuture x) := by
  unfold asFuture
  split
  · exact adds_pure _
  · refine adds_bind (adds_quiet _) fun c => ?_
    split
    · exact adds_spawn _
    · exact adds_bind (adds_write _ _ (by decide)) fun _ => adds_spawn _
  · exact adds_throw _

theorem adds_attach (f : Ref .future) (r : Reaction) : Adds (attach f r) := fun w => by
  rw [run_attach]
  split
  · exact .ofTable rfl
  · exact .set w rfl rfl

theorem adds_join (g : Ref .future) (seen : List (Value × Ref .future)) (x : Value) :
    Adds (join g seen x) := by
  unfold join
  split
  · exact adds_pure _
  · exact adds_bind (adds_asFuture x) fun f => adds_bind (adds_attach f _) fun _ => adds_pure _

theorem paired_join {g : Ref .future} {seen next : List (Value × Ref .future)} {x : Value}
    (run : join g seen x w = (.ok next, v)) (paired : ∀ e ∈ seen, ∀ f, e.1 = .obj .future f → e.2 = f) :
    (∀ e ∈ next, ∀ f, e.1 = .obj .future f → e.2 = f) ∧ next.map Prod.fst = seen.map Prod.fst ++ [x] := by
  have snoc {h : Ref .future} (own : ∀ f, x = .obj .future f → h = f) :
      (∀ e ∈ seen ++ [(x, h)], ∀ f, e.1 = .obj .future f → e.2 = f) ∧
        (seen ++ [(x, h)]).map Prod.fst = seen.map Prod.fst ++ [x] :=
    ⟨List.forall_mem_append.mpr ⟨paired, by simpa using own⟩, by simp⟩
  unfold join at run
  cases known : seen.lookup x with
  | some h =>
    rw [known] at run
    obtain ⟨_, _, split, -⟩ := List.lookup_eq_some_iff.mp known
    have mem : (x, h) ∈ seen := by simp [split]
    cases run
    exact snoc fun f is => paired _ mem f is
  | none =>
    rw [known] at run
    obtain ⟨h, a, found, rest⟩ := bind_ok run
    obtain ⟨-, b, -, ends⟩ := bind_ok rest
    cases ends
    refine snoc fun f is => ?_
    subst is
    cases found
    rfl

theorem paired_joins {g : Ref .future} {vs : List Value} {seen members : List (Value × Ref .future)}
    (run : vs.foldlM (join g) seen w = (.ok members, v))
    (paired : ∀ e ∈ seen, ∀ f, e.1 = .obj .future f → e.2 = f) :
    (∀ e ∈ members, ∀ f, e.1 = .obj .future f → e.2 = f) ∧
      members.map Prod.fst = seen.map Prod.fst ++ vs := by
  induction vs generalizing seen w with
  | nil =>
    cases run
    exact ⟨paired, by simp⟩
  | cons x vs ih =>
    rw [List.foldlM_cons] at run
    obtain ⟨next, a, joined, rest⟩ := bind_ok run
    obtain ⟨pairs, firsts⟩ := paired_join joined paired
    obtain ⟨all, list⟩ := ih rest pairs
    exact ⟨all, by simp [list, firsts]⟩

theorem adds_setGroup {g : Ref .future} (adds : w.Adds v) (dead : ¬ w.heap.Live g)
    (status : (v.heap.get g).status = .waiting) (members : List (Ref .future)) (missing : Nat) :
    w.Adds (setGroup g members missing false v).2 := adds.setNew dead status

theorem adds_group (vs : List Value) : Adds (group vs) := fun w => by
  unfold group
  split
  · exact adds_bind (adds_quiet _) (fun x => adds_resolved x) w
  · have made : w.Adds (w.alloc .future { origin := .group [] 0 false }) := .alloc w (.inl rfl)
    have joined := adds_foldlM vs (adds_join (w.heap.fresh .future)) []
      (w.alloc .future { origin := .group [] 0 false })
    rw [run_bind, run_create]
    simp only [run_bind]
    rcases run : vs.foldlM (join (w.heap.fresh .future)) []
      (w.alloc .future { origin := .group [] 0 false }) with ⟨e | members, v⟩ <;> rw [run] at joined
    · exact made.trans joined
    · refine adds_setGroup (made.trans joined) (Heap.not_live_fresh _ _) ?_ _ _
      rw [(joined.spares _ (Heap.live_fresh_alloc _ _)).status]
      exact congrArg Future.status (Heap.get_alloc_fresh (k := .future) w.heap _)

theorem members_group {vs : List Value} {g f : Ref .future} (run : group vs w = (.ok g, v))
    (mem : .obj .future f ∈ vs) : v.heap.Live g ∧ (v.heap.get g).status = .waiting ∧
      ∃ members, (v.heap.get g).members? = some members ∧ f ∈ members := by
  unfold group at run
  rw [if_neg (by simpa using List.ne_nil_of_mem mem)] at run
  obtain ⟨h, u, made, rest⟩ := bind_ok run
  obtain ⟨members, x, joins, rest⟩ := bind_ok rest
  obtain ⟨_, y, given, ends⟩ := bind_ok rest
  obtain ⟨rfl, rfl⟩ : h = w.heap.fresh .future ∧ u = w.alloc .future { origin := .group [] 0 false } := by
    cases made
    exact ⟨rfl, rfl⟩
  have joined := adds_foldlM vs (adds_join (w.heap.fresh .future)) []
    (w.alloc .future { origin := .group [] 0 false })
  rw [joins] at joined
  have known := Heap.live_fresh_alloc (k := .future) w.heap { origin := .group [] 0 false }
  have live : x.heap.Live (w.heap.fresh .future) := joined.live _ known
  cases given
  cases ends
  have get := (World.get_set _ (w.heap.fresh .future) (w := x)
    { x.heap.get (w.heap.fresh .future) with
      origin := .group (members.map Prod.snd) (members.map Prod.snd).eraseDups.length false } live).trans
    (if_pos rfl)
  obtain ⟨pairs, firsts⟩ := paired_joins joins (by simp)
  obtain ⟨e, among, is⟩ := List.mem_map.mp (show .obj .future f ∈ members.map Prod.fst by simpa [firsts])
  refine ⟨live_set.mpr live, ?_, members.map Prod.snd, ?_, pairs e among f is ▸ List.mem_map_of_mem among⟩
  · refine (congrArg Future.status get).trans ((joined.spares _ known).status.trans ?_)
    exact congrArg Future.status (Heap.get_alloc_fresh (k := .future) w.heap _)
  · exact congrArg Future.members? get

end AsyncImport.Edit
