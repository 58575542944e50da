import AsyncImport.Proofs.Dependencies
import AsyncImport.Proofs.Tally

/-!
# Fixed dependencies

When every name is always given the same dependencies, the state of a loader can be compared with a
`Plan`: its edges are the plan's, what is loaded or cached is `Plan.Grounded`, and a fault about a
circle names a circle of the plan. `Site.Charted` says so, and `Site.Sketches` are the changes that
keep it.
-/

namespace AsyncImport

open Relation

/-- The dependencies that each name is given. -/
abbrev Plan := String → List String

namespace Plan

variable {g : Plan}

def Needs (g : Plan) (a b : String) : Prop := b ∈ g a

/-- Every path of dependencies from a name comes to an end. -/
def Grounded (g : Plan) (s : String) : Prop := Acc (fun d n => g.Needs n d) s

/-- Names that depend on each other in a circle: the list ends with the name that it begins with. -/
structure Circle (g : Plan) (names : List String) : Prop where
  long : 2 ≤ names.length
  closed : names.head? = names.getLast?
  follows : names.IsChain g.Needs

theorem grounded_of_all {s : String} (all : ∀ d ∈ g s, g.Grounded d) : g.Grounded s := ⟨s, all⟩

theorem Grounded.acyclic {s : String} (grounded : g.Grounded s) : ¬ TransGen g.Needs s s := by
  induction grounded with
  | intro s _ ih =>
    intro cycle
    obtain ⟨d, needs, path⟩ := TransGen.head'_iff.mp cycle
    exact ih d needs (.tail' path needs)

/-- A name from which a cycle can be reached is not grounded. -/
theorem not_grounded {s c : String} (path : ReflTransGen g.Needs s c) (cycle : TransGen g.Needs c c) :
    ¬ g.Grounded s := by
  induction path using ReflTransGen.head_induction_on with
  | refl => exact fun grounded => grounded.acyclic cycle
  | head needs _ ih => exact fun grounded => ih (grounded.inv needs)

theorem reaches_last {a z : String} {names : List String} (chain : (a :: names).IsChain g.Needs)
    (last : (a :: names).getLast? = some z) : ReflTransGen g.Needs a z := by
  induction names generalizing a with
  | nil =>
    cases last
    exact .refl
  | cons b names ih =>
    obtain ⟨needs, chain⟩ := List.isChain_cons_cons.mp chain
    rw [List.getLast?_cons_cons] at last
    exact .head needs (ih chain last)

theorem Circle.cycle {names : List String} (circle : g.Circle names) :
    ∃ s ∈ names, TransGen g.Needs s s := by
  obtain ⟨long, closed, follows⟩ := circle
  match names with
  | [] => simp at long
  | [_] => simp at long
  | a :: b :: names =>
    obtain ⟨needs, chain⟩ := List.isChain_cons_cons.mp follows
    rw [List.head?_cons, List.getLast?_cons_cons] at closed
    exact ⟨a, List.mem_cons_self, .head' needs (reaches_last chain closed.symm)⟩

end Plan

namespace World

structure Mute (w v : World) : Prop where
  still : w.Still v
  straight : w.Straight v
  plain : ∀ f : Ref .future, ¬ w.heap.Live f → (v.heap.get f).origin = .plain

variable {u v w : World}

theorem Slight.mute (slight : w.Slight v) (names : w.NamesKept v) : w.Mute v where
  still := slight.loose.still names
  straight := slight.straight
  plain f dead := by rw [slight.futures, Heap.get_not_live dead]; rfl

theorem Near.mute (near : w.Near v) : w.Mute v :=
  near.tame.mute fun d live => near.still.rests d live

end World

namespace Site

variable (S : Site) (g : Plan)

def Sure (w : World) (d : Ref .draft) : Prop := ∃ s, (w.heap.get d).name = .str s ∧ g.Grounded s

def Vouched (w : World) (x : Value) : Prop := ∃ d, x = .obj .draft d ∧ Sure g w d

/-- What the result of an activity tells about the names that it was for. -/
def Result (w : World) : Activity → Value → Prop
  | .settle _ (.str s) _ _ _, _ => g.Grounded s
  | .loadDependencies _ draft, x => x = draft ∧ Vouched g w x
  | .fetchDraft _ (.str s) _, x => Vouched g w x ∧ g.Grounded s
  | .dependencyStage _ _, x => Vouched g w x
  | .invoke (.library .dependencyStage) _, x =>
    ∃ c m d, x = .obj .coroutine c ∧ w.heap.Live c ∧ (w.heap.get c).activity = .dependencyStage m d
  | .awaitValue (.obj .coroutine c), x =>
    w.heap.Live c ∧ ∀ m d, (w.heap.get c).activity = .dependencyStage m d → Vouched g w x
  | .compileStage _ (.obj .draft d), x => ∀ r, x = .obj .module r →
    w.heap.Live r ∧ (w.heap.get d).name = .str (w.heap.get r).name
  | _, _ => True

structure Charted (w : World) : Prop where
  stands : S.Stands w
  circles : ∀ {r : Ref .failure} {names}, w.heap.get r = Fault.circular names → g.Circle names
  edges : ∀ {a b}, b ∈ (S.waits w).next a → ∃ s d, a = .text s ∧ b = .text d ∧ g.Needs s d
  loaded : ∀ {s label item}, S.record? w (.text s) = some ⟨label, .phase .loaded, item⟩ →
    g.Grounded s ∧ Vouched g w item
  cached : ∀ {s}, S.Cached w s → g.Grounded s
  done : ∀ {t : Ref .future} {a x}, (w.heap.get t).activity? = some a →
    (w.heap.get t).status = .done x → Result g w a x
  tallied : w.Tallied

structure Sketches (w v : World) : Prop where
  evolves : w.Evolves v
  circles : ∀ {r : Ref .failure} {names}, v.heap.get r = Fault.circular names →
    w.heap.get r = Fault.circular names ∨ g.Circle names
  edges : ∀ {a b}, b ∈ (S.waits v).next a →
    b ∈ (S.waits w).next a ∨ ∃ s d, a = .text s ∧ b = .text d ∧ g.Needs s d
  loaded : ∀ {s label item}, S.record? v (.text s) = some ⟨label, .phase .loaded, item⟩ →
    S.record? w (.text s) = some ⟨label, .phase .loaded, item⟩ ∨ g.Grounded s ∧ Vouched g v item
  cached : ∀ {s}, S.Cached v s → S.Cached w s ∨ g.Grounded s
  done : ∀ {t : Ref .future} {a x}, (v.heap.get t).activity? = some a →
    (v.heap.get t).status = .done x →
    (w.heap.get t).activity? = some a ∧ (w.heap.get t).status = .done x ∨ Result g v a x
  tallied : w.Tallied → v.Tallied

variable {S g} {u v w : World}

/-! ## What lasts -/

theorem Sure.live {d : Ref .draft} (sure : Sure g w d) : w.heap.Live d := live_named sure.choose_spec.1

theorem Sure.mono (evolves : w.Evolves v) {d : Ref .draft} (sure : Sure g w d) : Sure g v d := by
  have kept : (v.heap.get d).name = (w.heap.get d).name := evolves.follows d sure.live
  exact sure.imp fun _ ⟨named, grounded⟩ => ⟨kept.trans named, grounded⟩

theorem Vouched.mono (evolves : w.Evolves v) {x : Value} (vouched : Vouched g w x) : Vouched g v x :=
  vouched.imp fun _ ⟨is, sure⟩ => ⟨is, sure.mono evolves⟩

theorem activity_kept (evolves : w.Evolves v) {c : Ref .coroutine} (live : w.heap.Live c) :
    (v.heap.get c).activity = (w.heap.get c).activity := evolves.follows c live

theorem Result.mono (evolves : w.Evolves v) {a : Activity} {x : Value} (result : Result g w a x) :
    Result g v a x := by
  unfold Result at result ⊢
  split
  · exact result
  · exact ⟨result.1, result.2.mono evolves⟩
  · exact ⟨result.1.mono evolves, result.2⟩
  · exact Vouched.mono evolves result
  · obtain ⟨c, m, d, is, live, activity⟩ := result
    exact ⟨c, m, d, is, evolves.live live, (activity_kept evolves live).trans activity⟩
  · obtain ⟨live, vouched⟩ := result
    refine ⟨evolves.live live, fun m d activity => (vouched m d ?_).mono evolves⟩
    rwa [← activity_kept evolves live]
  · next d =>
    intro r is
    obtain ⟨live, named⟩ := result r is
    have kept : (v.heap.get r).name = (w.heap.get r).name := evolves.follows r live
    have same : (v.heap.get d).name = (w.heap.get d).name := evolves.follows d (live_named named)
    exact ⟨evolves.live live, by rw [same, named, kept]⟩
  · trivial

theorem Charted.sketch (charted : S.Charted g w) (sketches : S.Sketches g w v) : S.Charted g v where
  stands := charted.stands.mono sketches.evolves
  circles is := (sketches.circles is).elim charted.circles id
  edges edge := (sketches.edges edge).elim charted.edges id
  loaded found := (sketches.loaded found).elim
    (fun old => (charted.loaded old).imp_right (Vouched.mono sketches.evolves)) id
  cached known := (sketches.cached known).elim charted.cached id
  done activity done := (sketches.done activity done).elim
    (fun old => (charted.done old.1 old.2).mono sketches.evolves) id
  tallied := sketches.tallied charted.tallied

/-! ## Changes that go by the plan -/

namespace Sketches

theorem refl (w : World) : S.Sketches g w w :=
  ⟨.refl w, .inl, .inl, .inl, .inl, fun activity done => .inl ⟨activity, done⟩, id⟩

theorem trans (first : S.Sketches g u w) (next : S.Sketches g w v) : S.Sketches g u v where
  evolves := first.evolves.trans next.evolves
  circles is := (next.circles is).elim first.circles .inr
  edges edge := (next.edges edge).elim first.edges .inr
  loaded found := (next.loaded found).elim
    (fun old => (first.loaded old).imp_right fun ⟨grounded, vouched⟩ =>
      ⟨grounded, vouched.mono next.evolves⟩) .inr
  cached known := (next.cached known).elim first.cached .inr
  done activity done := (next.done activity done).elim
    (fun old => (first.done old.1 old.2).imp_right (Result.mono next.evolves)) .inr
  tallied := next.tallied ∘ first.tallied

theorem ofSame (same : S.Same w v) (evolves : w.Evolves v)
    (circles : ∀ {r : Ref .failure} {names}, v.heap.get r = Fault.circular names →
      w.heap.get r = Fault.circular names ∨ g.Circle names)
    (done : ∀ {t : Ref .future} {a x}, (v.heap.get t).activity? = some a →
      (v.heap.get t).status = .done x →
      (w.heap.get t).activity? = some a ∧ (w.heap.get t).status = .done x ∨ Result g v a x)
    (tallied : w.Tallied → v.Tallied) : S.Sketches g w v where
  evolves := evolves
  circles := circles
  edges edge := .inl (by rwa [same.waits] at edge)
  loaded found := .inl (by rwa [same.record?] at found)
  cached known := .inl (same.cached.mp known)
  done := done
  tallied := tallied

end Sketches

theorem circles_of_straight (straight : w.Straight v) {r : Ref .failure} {names : List String}
    (is : v.heap.get r = Fault.circular names) :
    w.heap.get r = Fault.circular names ∨ g.Circle names :=
  .inl ((straight r (by rw [is]; rfl)).symm.trans is)

theorem sketches_mute (stands : S.Stands w) (mute : w.Mute v) : S.Sketches g w v := by
  have still := mute.still
  refine .ofSame ⟨still.rests _ stands.store, still.rests _ stands.loader, still.rests _ stands.manager⟩
    still.evolves (circles_of_straight mute.straight) (fun {t a x} activity done => ?_)
    fun tallied => tallied.mono (World.reckons_still still mute.plain)
  by_cases live : w.heap.Live t
  · have same : v.heap.get t = w.heap.get t := still.rests t live
    exact .inl (same ▸ ⟨activity, done⟩)
  · simp [Future.activity?, mute.plain t live] at activity

theorem sketches_restored (stands : S.Stands w) {c : Store}
    (loaded : ∀ {s label item}, c.records.get? (.text s) = some ⟨label, .phase .loaded, item⟩ →
      S.record? w (.text s) = some ⟨label, .phase .loaded, item⟩ ∨ g.Grounded s ∧ Vouched g w item) :
    S.Sketches g w (S.restored w c) where
  evolves := evolves_restored c w
  circles {r _} is := .inl (by rwa [get_restored c r (by decide)] at is)
  edges edge := .inl (by rwa [waits_restored] at edge)
  loaded found := (loaded ((record?_restored c stands _).symm.trans found)).imp_right
    fun ⟨grounded, vouched⟩ => ⟨grounded, vouched.mono (evolves_restored c w)⟩
  cached known := .inl (by
    unfold Cached at known ⊢
    rwa [get_restored c _ (by decide)] at known)
  done {t a x} activity done := .inl (by
    rw [get_restored c t (by decide)] at activity done
    exact ⟨activity, done⟩)
  tallied tallied := tallied.mono (.ofGet (fun _ => (evolves_restored c w).live) fun f => get_restored c f (by decide))

def Fine (g : Plan) (f : Fault) : Prop := ∀ names, f = .circular names → g.Circle names

theorem fine_of_straight {f : Fault} (straight : f.isCircular = false) : Fine g f := by
  rintro names rfl
  cases straight

theorem sketches_failure (stands : S.Stands w) {f : Fault} (fine : Fine g f) :
    S.Sketches g w (w.alloc .failure f) := by
  have still := World.still_failure w f
  have futures (t : Ref .future) : (w.alloc .failure f).heap.get t = w.heap.get t :=
    World.get_alloc_kind _ (by decide)
  refine .ofSame ⟨still.rests _ stands.store, still.rests _ stands.loader, still.rests _ stands.manager⟩
    still.evolves (fun {r names} is => ?_) (fun {t a x} activity done => ?_)
    fun tallied => tallied.mono (.ofGet (fun _ => still.evolves.live) futures)
  · rw [World.get_alloc] at is
    split at is
    · exact .inr (fine names is)
    · exact .inl is
  · rw [futures] at activity done
    exact .inl ⟨activity, done⟩

theorem sketches_spawned (w : World) (a : Activity) : S.Sketches g w (spawned w a) := by
  refine .ofSame (same_spawned w a) (evolves_spawned w a)
    (circles_of_straight fun r _ => World.get_alloc_kind _ (by decide))
    (fun {t b x} activity done => ?_) fun tallied => tallied.mono (World.reckons_spawned w a)
  rw [get_spawned] at activity done
  split at activity
  · next new =>
    rw [if_pos new] at done
    cases done
  · next old =>
    rw [if_neg old] at done
    exact .inl ⟨activity, done⟩

/-! ## Edits -/

open Edit

variable {α β : Type}

def Draws (S : Site) (g : Plan) (e : Edit α) (w : World) : Prop :=
  S.Charted g w → S.Sketches g w (e w).2 ∧ ∀ f, (e w).1 = .error f → Fine g f

theorem draws_ok {e : Edit α} {x : α} (run : e w = (.ok x, v))
    (sketches : S.Stands w → S.Sketches g w v) : S.Draws g e w := fun charted => by
  rw [run]
  exact ⟨sketches charted.stands, by simp⟩

theorem draws_error {e : Edit α} {f : Fault} (run : e w = (.error f, w)) (fine : S.Charted g w → Fine g f) :
    S.Draws g e w := fun charted => by
  rw [run]
  refine ⟨.refl w, fun c same => ?_⟩
  cases same
  exact fine charted

theorem draws_pure (x : α) (w : World) : S.Draws g (pure x) w := draws_ok rfl fun _ => .refl w

theorem draws_throw {f : Fault} (straight : f.isCircular = false) (w : World) :
    S.Draws g (throw f : Edit α) w := draws_error rfl fun _ => fine_of_straight straight

theorem draws_quiet (x : Quiet α) (w : World) : S.Draws g (liftM x : Edit α) w := fun charted =>
  ⟨sketches_mute charted.stands (x.near w).mute, fun f same => fine_of_straight (x.straight w f same)⟩

theorem draws_bind {x : Edit α} {f : α → Edit β} (first : S.Draws g x w)
    (next : ∀ a v, x w = (.ok a, v) → S.Sketches g w v → S.Draws g (f a) v) :
    S.Draws g (x >>= f) w := fun charted => by
  obtain ⟨sketches, fine⟩ := first charted
  rw [run_bind]
  rcases run : x w with ⟨e | a, v⟩ <;> rw [run] at sketches fine
  · exact ⟨sketches, fun c same => by cases same; exact fine _ rfl⟩
  · obtain ⟨later, fine⟩ := next a v run sketches (charted.sketch sketches)
    exact ⟨sketches.trans later, fine⟩

theorem Draws.after {e : Edit α} (draws : S.Draws g e w) (charted : S.Charted g w) :
    S.Charted g (e.after w).2 := by
  obtain ⟨sketches, fine⟩ := draws charted
  have charted := charted.sketch sketches
  unfold Edit.after
  rcases run : e w with ⟨f | a, v⟩ <;> rw [run] at charted fine
  · exact charted.sketch (sketches_failure charted.stands (fine f rfl))
  · exact charted

end Site
end AsyncImport
