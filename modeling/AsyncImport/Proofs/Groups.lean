import AsyncImport.Proofs.FirstOccurrences
import AsyncImport.Proofs.Requests

/-!
# Groups of fetches

A group of futures leaves the loader's state alone: its members are as they were, but for telling
the group when they are done.
-/

namespace AsyncImport.Site

open Edit Change

variable {S : Site} {L : S.Ledger} {u v w : World}

structure Attached (w v : World) : Prop where
  turns : w.Turns v
  grows : World.Grows w v
  old : ∀ f : Ref .future, v.heap.Live f → w.heap.Live f

theorem Attached.refl (w : World) : Attached w w := ⟨.refl w, .refl w, fun _ h => h⟩

theorem Attached.trans (first : Attached u w) (next : Attached w v) : Attached u v where
  turns := first.turns.trans next.turns
  grows :=
    { spares := fun f live => (first.grows.spares f live).trans
        (next.grows.spares f (first.turns.evolves.live live))
      reactions := fun f live r mem => next.grows.reactions f (first.turns.evolves.live live) r
        (first.grows.reactions f live r mem)
      ready := fun j mem => next.grows.ready j (first.grows.ready j mem)
      causes := fun mem => (next.grows.causes mem).elim
        (fun old => (first.grows.causes old).imp_right next.grows.done) .inr
      current := next.grows.current.trans first.grows.current }
  old f live := first.old f (next.old f live)

theorem attached {f : Ref .future} (live : w.heap.Live f) (r : Reaction) :
    Attached w (attach f r w).2 ∧ (attach f r w).2.Pending r f := by
  rw [run_attach]
  by_cases done : (w.heap.get f).status.isDone
  · have status : (w.heap.get f).status ≠ .waiting := by simpa [Status.isDone] using done
    rw [if_pos done]
    refine ⟨⟨.ofHeapEq rfl rfl rfl, ⟨fun _ _ => .ofGet rfl, fun _ _ _ h => h,
      fun j mem => List.mem_append_left _ mem, fun mem => ?_, rfl⟩, fun _ h => h⟩,
      .inr ⟨status, ?_⟩⟩
    · refine (List.mem_append.mp mem).imp_right fun new => ?_
      cases List.mem_singleton.mp new
      exact status
    exact List.mem_append_right _ (List.mem_singleton.mpr rfl)
  · have status : (w.heap.get f).status = .waiting := by simpa [Status.isDone] using done
    rw [if_neg done]
    let c : Future := { w.heap.get f with reactions := (w.heap.get f).reactions ++ [r] }
    have get (g : Ref .future) : (w.set f c).heap.get g = if g = f then c else w.heap.get g :=
      World.get_set f g c live
    refine ⟨⟨.setFuture w f c ⟨fun _ => rfl, rfl, rfl⟩, ⟨fun g _ => ?_, fun g _ r mem => ?_,
      fun _ h => h, .inl, rfl⟩, fun _ h => World.live_set.mp h⟩, .inl ⟨?_, ?_⟩⟩
    · by_cases same : g = f
      · subst same
        constructor <;> rw [get, if_pos rfl]
      · exact .ofGet (by rw [get, if_neg same])
    · rw [get]
      split
      · next same => exact List.mem_append_left _ (same ▸ mem)
      · exact mem
    · exact (congrArg Future.status ((get f).trans (if_pos rfl))).trans status
    · have reactions : ((w.set f c).heap.get f).reactions = (w.heap.get f).reactions ++ [r] :=
        congrArg Future.reactions ((get f).trans (if_pos rfl))
      rw [reactions]
      exact List.mem_append_right _ (List.mem_singleton.mpr rfl)

theorem run_joins (g : Ref .future) {vs : List Value}
    (futures : ∀ v ∈ vs, ∃ f, v = .obj .future f ∧ w.heap.Live f)
    (seen : List (Value × Ref .future))
    (paired : ∀ e ∈ seen, e.1 = .obj .future e.2 ∧ w.Pending (.tell g) e.2) :
    ∃ members v, vs.foldlM (join g) seen w = (.ok members, v) ∧ Attached w v ∧
      (∀ e ∈ members, e.1 = .obj .future e.2 ∧ v.Pending (.tell g) e.2) ∧
      members.map Prod.fst = seen.map Prod.fst ++ vs := by
  induction vs generalizing seen w with
  | nil => exact ⟨seen, w, rfl, .refl w, paired, by simp⟩
  | cons x vs ih =>
    obtain ⟨f, rfl, live⟩ := futures x List.mem_cons_self
    rw [List.foldlM_cons]
    cases known : seen.lookup (.obj .future f) with
    | some h =>
      obtain ⟨_, _, split, _⟩ := List.lookup_eq_some_iff.mp known
      have mem : (Value.obj .future f, h) ∈ seen := by simp [split]
      obtain ⟨members, v, run, attached, pairs, firsts⟩ :=
        ih (fun v mem => futures v (List.mem_cons_of_mem _ mem)) (seen ++ [(.obj .future f, h)])
          fun e last => (List.mem_append.mp last).elim (paired e) fun last => by
            rw [List.mem_singleton.mp last]
            exact paired _ mem
      refine ⟨members, v, ?_, attached, pairs, by simp [firsts]⟩
      simpa [run_bind, join, known] using run
    | none =>
      have one := attached live (.tell g)
      rw [run_attach] at one
      obtain ⟨one, told⟩ := one
      obtain ⟨members, v, run, attached, pairs, firsts⟩ :=
        ih (fun v mem => (futures v (List.mem_cons_of_mem _ mem)).imp
            fun h ⟨is, live⟩ => ⟨is, one.turns.evolves.live live⟩)
          (seen ++ [(.obj .future f, f)])
          fun e last => (List.mem_append.mp last).elim
            (fun old => ⟨(paired e old).1, one.grows.pending (paired e old).2⟩) fun last => by
              rw [List.mem_singleton.mp last]
              exact ⟨rfl, told⟩
      refine ⟨members, v, ?_, one.trans attached, pairs, by simp [firsts]⟩
      simpa [run_bind, run_map, join, known, asFuture, run_attach] using run

theorem run_group {vs : List Value} (futures : ∀ v ∈ vs, ∃ f, v = .obj .future f ∧ w.heap.Live f) :
    ∃ g v, group vs w = (.ok g, v) := by
  unfold group
  by_cases empty : vs.isEmpty
  · rw [if_pos empty]
    exact ⟨_, _, rfl⟩
  · have made : w.Evolves (w.alloc .future { origin := .group [] 0 false }) := .alloc w .future _
    obtain ⟨members, v, run, -⟩ := run_joins (w.heap.fresh .future)
      (fun v mem => (futures v mem).imp fun f ⟨is, live⟩ => ⟨is, made.live live⟩) [] (by simp)
    rw [if_neg empty, run_bind, run_create]
    simp only [run_bind]
    rw [run]
    exact ⟨_, _, rfl⟩

theorem turns_grouped {g : Ref .future} {c : Future} (fresh : g = w.heap.fresh .future)
    (attached : Attached (w.alloc .future { origin := .group [] 0 false }) v)
    (task : c.activity? = none) : w.Turns (v.set g c) where
  evolves := by
    have made := (World.Evolves.alloc w .future _).trans attached.turns.evolves
    exact made.setNew (k := .future) c (fresh ▸ Heap.not_live_fresh _ _)
  rests {k} r ne live := by
    rw [World.get_set_kind _ ne, ← World.get_alloc_kind (w := w) (k := .future)
      { origin := .group [] 0 false } ne]
    exact attached.turns.rests r ne ((World.live_alloc_kind ne).mpr live)
  tasks t none := by
    by_cases same : t = g
    · subst same
      by_cases live : v.heap.Live t
      · simp [World.task?, World.get_set _ _ _ live, task]
      · by_contra undone
        exact live (World.live_set.mp (World.task?_live undone))
    · have apart : (v.set g c).task? t = v.task? t := by
        unfold World.task?
        rw [World.get_set_ne _ same]
      rw [apart]
      refine attached.turns.tasks t ?_
      unfold World.task? at none ⊢
      rw [fresh] at same
      rwa [World.get_alloc, if_neg same]
  emitted := attached.turns.emitted

theorem does_group {vs : List Value} (futures : ∀ v ∈ vs, ∃ f, v = .obj .future f ∧ w.heap.Live f) :
    L.Does (group vs) w fun g v => v.heap.Live g ∧ ¬ w.heap.Live g ∧
      (∀ f : Ref .future, w.heap.Live f → World.Spares f w v) ∧
      ((v.heap.get g).status = .waiting → ∃ members, (v.heap.get g).members? = some members ∧
        ∀ f ∈ members, .obj .future f ∈ vs) := by
  unfold group
  by_cases empty : vs.isEmpty
  · rw [if_pos empty]
    refine does_bind (does_quiet _) fun x u _ ⟨near, _⟩ => ?_
    refine (does_resolved x).mono fun g v _ ⟨still, is, new, live⟩ =>
      ⟨live, fun old => new (near.still.evolves.live old), fun f old => ?_, by simp [is]⟩
    exact .ofGet (get_still (near.still.trans still) old)
  rw [if_neg empty]
  let g := w.heap.fresh .future
  let u := w.alloc .future { origin := .group [] 0 false }
  have made : w.Evolves u := .alloc w .future _
  obtain ⟨members, v, run, attached, pairs, firsts⟩ := run_joins (w := u) g
    (fun v mem => (futures v mem).imp fun f ⟨is, live⟩ => ⟨is, made.live live⟩) [] (by simp)
  have live : v.heap.Live g := attached.turns.evolves.live (Heap.live_fresh_alloc _ _)
  let futures' := members.map Prod.snd
  let c : Future := { v.heap.get g with origin := .group futures' futures'.eraseDups.length false }
  have get : (v.set g c).heap.get g = c := (World.get_set g g c live).trans (if_pos rfl)
  have others (f : Ref .future) (old : w.heap.Live f) :
      (v.set g c).heap.get f = v.heap.get f ∧ u.heap.get f = w.heap.get f :=
    ⟨World.get_set_ne (k := .future) c (Heap.ne_fresh old),
      (World.get_alloc f _).trans (if_neg (Heap.ne_fresh old))⟩
  have named (f : Ref .future) (mem : f ∈ futures') : .obj .future f ∈ vs := by
    obtain ⟨e, member, rfl⟩ := List.mem_map.mp mem
    have first : e.1 ∈ members.map Prod.fst := List.mem_map_of_mem member
    rw [← (pairs e member).1]
    simpa [firsts] using first
  have current : (v.set g c).current = w.current :=
    (World.current_set (k := .future) g c).trans (attached.grows.current.trans (World.current_alloc _))
  have grows : World.Grows w (v.set g c) :=
    { spares := fun f old => (World.Spares.ofGet (others f old).2).trans
        ((attached.grows.spares f (made.live old)).trans (.ofGet (others f old).1))
      reactions := fun f old r mem => by
        rw [(others f old).1]
        exact attached.grows.reactions f (made.live old) r (by rwa [(others f old).2])
      ready := attached.grows.ready
      causes := fun {r f} mem => (attached.grows.causes mem).imp_right fun done => by
        by_cases same : f = g
        · rw [same] at done ⊢
          rwa [get]
        · rwa [World.get_set_ne (k := .future) c same]
      current := current }
  -- a future that was given more than once reports once
  have gathers (waiting : c.status = .waiting) : (v.set g c).Gathers g := by
    refine ⟨futures', futures'.eraseDups.length, false, congrArg Future.origin get, ?_,
      futures'.eraseDups, nodup_eraseDups _, Nat.le_refl _, fun f mem => ?_⟩
    · obtain ⟨x, mem⟩ := List.exists_mem_of_ne_nil vs (by simpa using empty)
      obtain ⟨e, member, -⟩ := List.mem_map.mp
        (show x ∈ members.map Prod.fst by simpa [firsts] using mem)
      exact List.length_pos_of_mem (List.mem_eraseDups.mpr (List.mem_map_of_mem member))
    · have mem := List.mem_eraseDups.mp mem
      obtain ⟨e, member, rfl⟩ := List.mem_map.mp mem
      obtain ⟨f, is, old⟩ := futures _ (named e.2 mem)
      have apart : e.2 ≠ g := Heap.ne_fresh (by cases is; exact old)
      have same : (v.set g c).heap.get e.2 = v.heap.get e.2 := World.get_set_ne (k := .future) c apart
      exact ⟨List.mem_map_of_mem member, (pairs e member).2.mono (.ofGet same)
        (fun r h => by rwa [same]) fun _ h => h⟩
  refine does_ok (a := g) (v := v.set g c) ?_ ?_ fun _ =>
    ⟨World.live_set.mpr live, Heap.not_live_fresh _ _, grows.spares, fun _ =>
      ⟨futures', by rw [get]; rfl, named⟩⟩
  · have run : vs.foldlM (join g) [] (w.alloc .future { origin := .group [] 0 false }) =
        (.ok members, v) := run
    rw [run_bind, run_create]
    simp only [run_bind]
    rw [run]
    rfl
  · have turns : w.Turns (v.set g c) := turns_grouped rfl attached rfl
    refine fun fine => L.grouped fine turns current
      (fun t task => grows.spares t (World.task?_live task))
      (grows.wired (fun t dead task => absurd (turns.tasks t ?_) task) fun f dead live' waiting _ => ?_)
      fun f dead => ?_
    · by_contra undone
      exact dead (World.task?_live undone)
    · rcases World.live_alloc.mp
        (attached.old f (World.live_set.mp live')) with old | rfl
      · exact absurd old dead
      · exact gathers (by rwa [get] at waiting)
    · by_cases same : f = g
      · rw [same, get]
        rfl
      · rw [World.get_set_ne (k := .future) c same, Heap.get_not_live fun live' => ?_]
        · rfl
        · exact (World.live_alloc.mp (attached.old f live')).elim dead same

end AsyncImport.Site
