import AsyncImport.Proofs.Announcing
import AsyncImport.Proofs.Grounding

/-!
# Linking modules

A module is cached once all of its dependencies are, and announced at once: between the two nothing
runs that could tell the difference.
-/

namespace AsyncImport.Desk

open Site Edit Change Protocol Protocol.Course

variable {S : Desk} {u v w : World} {host : Host} {α β : Type} {a : Option Activity}
  {scope : String → Prop}

abbrev Recites (S : Desk) (host : Host) (scope : String → Prop) (a : Option Activity)
    (r : Routine α) (Q : Except (Ref .failure) α → World → Prop) (w : World) : Prop :=
  (S.recounting host scope).Goes a r Q w

theorem Recites.among {wider : String → Prop} {r : Routine α}
    {Q : Except (Ref .failure) α → World → Prop} (recites : S.Recites host wider a r Q w)
    (among : S.holds → ∀ s, scope s → wider s) : S.Recites host scope a r Q w :=
  Safe.mono recites fun _ _ ⟨recounts, holds⟩ => ⟨recounts.mono among, holds⟩

/-! ## What lasts -/

theorem Linkable.mono {r : Ref .module} (linkable : S.Linkable w r) (lasting : S.Lasting w v) :
    S.Linkable v r where
  live := lasting.endures.live linkable.live
  depends announces := by
    obtain ⟨ds, depends⟩ := linkable.depends announces
    exact ⟨ds, (lasting.retains announces).dependsOn lasting.endures linkable.live depends⟩

theorem Linkable.name {r : Ref .module} (linkable : S.Linkable w r) (lasting : S.Lasting w v) :
    (v.heap.get r).name = (w.heap.get r).name := lasting.modules r linkable.live

theorem Provided.cached {name x : Value} (provided : S.Provided w name x) :
    ∃ s, name = .str s ∧ S.Cached w s := by
  obtain ⟨s, r, is, -, cached, -⟩ := provided
  exact ⟨s, is, cached⟩

/-! ## Requests -/

theorem closes_apart {b : Activity} {o : Outcome}
    (apart : ∀ m r, b ≠ .invoke (.library .linkModule) [m, .obj .module r])
    (closes : S.Closes w b o) : S.Chronicle none w := by
  unfold Closes at closes
  split at closes
  · exact absurd rfl (apart _ _)
  · exact closes

theorem leaving_apart {b : Activity}
    (apart : ∀ m r, b ≠ .invoke (.library .linkModule) [m, .obj .module r]) (s : String) :
    Leaving w b s := by
  unfold Leaving
  split
  · exact absurd rfl (apart _ _)
  · trivial

def Rests (b : Activity) : Prop := ∀ l x, b ≠ .link l x ∧ b ≠ .buildNow l x

theorem rests_public {b : Activity} (is : S.Public b) : Rests b :=
  fun _ _ => ⟨by rintro rfl; exact is, by rintro rfl; exact is⟩

theorem Entrusts.allows {b : Activity} (entrusts : S.Entrusts a w b) (admitted : S.Admitted w b)
    (rests : Hosted a ∨ Rests b)
    (apart : ∀ m r, b ≠ .invoke (.library .linkModule) [m, .obj .module r]) : S.Allows w b where
  admitted := admitted
  makes := entrusts.makes
  links r is := by
    rcases is with ⟨m, is⟩ | ⟨l, is⟩
    · exact absurd is (apart m r)
    · exact entrusts.links l r is
  holds holds := by
    rcases rests with hosted | rests
    · exact entrusts.holds holds hosted
    · exact fun l x => ⟨(rests l x).1, fun s is => absurd is (rests l _).2⟩

section

variable {b : Activity} (telling : S.Telling w)
  (apart : Linking a → ∀ (m : Ref .manager) r,
    b ≠ .invoke (.library .linkModule) [.obj .manager m, .obj .module r])
  (free : Suspends w b → S.holds → ∀ s, ¬ scope s)
  (admitted : S.Uses a w b → S.Admitted w b) (rests : Hosted a ∨ Rests b)
include telling apart free admitted rests

theorem recites_carried :
    S.Recites host scope a (Routine.perform b) (Ok fun x v => S.Brings v b x) w := by
  refine goes_perform fun expected => ?_
  have entrusts : S.Entrusts a w b := expected
  have apart (m : Value) (r : Ref .module) :
      b ≠ .invoke (.library .linkModule) [m, .obj .module r] := by
    intro is
    have permitted := entrusts.permitted _ _ (.inl is)
    obtain rfl : m = .obj .manager S.manager := by simpa [Permitted] using permitted
    exact apart (entrusts.linker _ is) _ _ is
  refine ⟨⟨telling, entrusts.allows (admitted entrusts.toUses) rests apart⟩,
    fun o v lasting current post => ?_⟩
  obtain ⟨closes, active, stays, brings⟩ := post
  refine ⟨⟨⟨closes_apart apart closes, active⟩, lasting, current, fun holds s r mem => ?_⟩, ?_⟩
  · by_cases suspends : Suspends w b
    · exact absurd mem (free suspends holds s)
    · exact stays suspends holds s r (leaving_apart apart s)
  · cases o with
    | ok x => exact brings x rfl
    | error e => trivial

theorem grants_carried : (S.recounting host scope).Grants a w b := by
  intro calls
  have perform : S.Recites host scope a (Routine.perform b) _ w :=
    recites_carried telling apart free admitted rests
  obtain ⟨pre, post⟩ := perform calls
  refine ⟨pre, fun o v lasting current done => ?_⟩
  have goes := post o v lasting current done
  cases o <;> exact goes.1

end

section

variable (telling : S.Telling w)
include telling

theorem recites_perform {b : Activity} (is : S.Public b)
    (free : Suspends w b → S.holds → ∀ s, ¬ scope s) :
    S.Recites host scope a (Routine.perform b) (Ok fun x v => S.Brings v b x) w :=
  recites_carried telling (fun _ m r same => by subst same; exact is) free (fun _ => .inl (.inl is))
    (.inr (rests_public is))

theorem grants_public {b : Activity} (is : S.Public b)
    (free : Suspends w b → S.holds → ∀ s, ¬ scope s) : (S.recounting host scope).Grants a w b :=
  grants_carried telling (fun _ m r same => by subst same; exact is) free (fun _ => .inl (.inl is))
    (.inr (rests_public is))

theorem grants_invoke (f : Value) (args : List Value) (apart : Linking a → Brief args) :
    (S.recounting host scope).Grants a w (.invoke f args) :=
  grants_carried telling (fun links m r same => by cases same; exact apart links m r rfl)
    (fun never => never.elim)
    (fun uses => .inr (.inl ⟨f, args, .inl rfl, uses.permitted f args (.inl rfl)⟩))
    (.inr fun _ _ => by simp)

theorem grants_produce (f : Value) (args : List Value) :
    (S.recounting host scope).Grants a w (.produce f args) :=
  grants_carried telling (fun _ _ _ => by simp) (fun never => never.elim)
    (fun uses => .inr (.inl ⟨f, args, .inr rfl, uses.permitted f args (.inr rfl)⟩))
    (.inr fun _ _ => by simp)

theorem grants_await (x : Value) (free : S.holds → ∀ s, ¬ scope s) :
    (S.recounting host scope).Grants a w (.awaitValue x) :=
  grants_carried telling (fun _ _ _ => by simp) (fun _ => free)
    (fun uses => .inr (.inr ⟨x, rfl, uses.awaits x rfl⟩)) (.inr fun _ _ => by simp)

end

def confiding : Bounds :=
  ⟨World.Tame, fun b => ∃ f args, b = .invoke f args ∧ Brief args, fun _ => True⟩

theorem telling_confiding : confiding.Telling := ⟨id, fun f args brief => ⟨f, args, rfl, brief⟩⟩

theorem recites_confiding {r : Routine α} (telling : S.Telling w) (within : r.Within confiding w) :
    S.Recites host scope a r Any w := by
  refine goes_within (B := confiding) telling
    (fun recounts tame expected => (S.recounting host scope).tame (Recounts.telling recounts) tame expected)
    ?_ (fun _ _ => trivial) within
  rintro u _ recounts ⟨f, args, rfl, brief⟩
  exact grants_invoke (Recounts.telling recounts) f args fun _ => brief

theorem recites_invoking {r : Routine α} (telling : S.Telling w) (unlinking : ¬ Linking a)
    (within : r.Within (invoking World.Tame) w) : S.Recites host scope a r Any w :=
  goes_invoking telling
    (fun recounts tame expected => (S.recounting host scope).tame (Recounts.telling recounts) tame expected)
    (fun f args recounts => grants_invoke (Recounts.telling recounts) f args
      fun links => absurd links unlinking) within

theorem recites_consulting {r : Routine α} (telling : S.Telling w) (unlinking : ¬ Linking a)
    (empty : S.holds → ∀ s, ¬ scope s) (within : r.Within (consulting World.Tame) w) :
    S.Recites host scope a r Any w :=
  goes_consulting telling
    (fun recounts tame expected => (S.recounting host scope).tame (Recounts.telling recounts) tame expected)
    (fun f args recounts => grants_invoke (Recounts.telling recounts) f args
      fun links => absurd links unlinking)
    (fun x recounts => grants_await (Recounts.telling recounts) x empty) within

theorem plain_tame : (invoking World.Tame).Plain := plain_invoking id

theorem roomy_tame : (consulting World.Tame).Roomy := roomy_consulting id

theorem recites_first {x : Quiet α} {f : α → Routine β}
    {Q : Except (Ref .failure) β → World → Prop} [Lenient Q] (telling : S.Telling w)
    (next : ∀ y v, x.run w = (.ok y, v) → S.Recounts scope w v → S.Recites host scope a (f y) Q v) :
    S.Recites host scope a (liftM x >>= f) Q w := goes_first telling next

theorem recites_doing {e : Edit α} {f : α → Routine β} {R : α → World → Prop}
    {Q : Except (Ref .failure) β → World → Prop} [Lenient Q] (telling : S.Telling w)
    (does : S.chronicling.Does e w R)
    (next : ∀ x v, S.Recounts scope w v → R x v → S.Recites host scope a (f x) Q v) :
    S.Recites host scope a ((Routine.edit e).bind f) Q w := by
  refine goes_doing (fun _ => ?_) fun x v run _ recounts => ?_
  · have proceeds : S.Proceeds w (e.after w).2 := (does.after telling.chronicle).1.1
    exact proceeds.steps telling
  · exact next x v recounts (does.holds telling.chronicle run)

theorem recites_edit {e : Edit α} {R : α → World → Prop} (telling : S.Telling w)
    (does : S.chronicling.Does e w R) :
    S.Recites host scope a (Routine.edit e) (Ok R) w := by
  rw [← Routine.bind_done (Routine.edit e)]
  exact recites_doing telling does fun x v recounts holds => goes_done recounts.telling holds

/-! ## Caching a module -/

theorem recites_dependency (telling : S.Telling w) (dep : Value) :
    S.Recites host scope a (Linker.dependency (.obj .manager S.manager) dep)
      (Ok fun x v => S.Provided v dep x) w := by
  unfold Linker.dependency
  refine recites_first telling fun m v run recounts => ?_
  cases run
  exact recites_perform recounts.telling rfl fun never => never.elim

theorem safe_looking {x : Quiet α} {y : α} {f : α → Routine β}
    {Q : Except (Ref .failure) β → World → Prop} (stands : S.Stands w)
    (active : ∀ t, w.current = some t → w.Active t) (run : x.run w = (.ok y, v))
    (next : S.Proceeds w v → (∀ t, v.current = some t → v.Active t) →
      (S.linking host).Safe a Q (f y) v) :
    (S.linking host).Safe a Q (liftM x >>= f) w := by
  have ends : (liftM x : Edit α).after w = (.ok y, v) := after_ok run
  have near := x.near w
  rw [run] at near
  have proceeds : S.Proceeds w v := .ofTame stands near.tame (names_kept near.still.evolves)
  refine safe_bind (Q := fun o u => o = .ok y ∧ u = v) (safe_edit fun _ => ?_) ?_ ?_
  · rw [ends]
    exact ⟨⟨proceeds.stands, .ofSilent proceeds.toUnlinking⟩, proceeds.fair, rfl, rfl⟩
  · rintro z u ⟨is, rfl⟩
    cases is
    exact next proceeds (active_proceeds proceeds active)
  · rintro e u ⟨is, -⟩
    cases is

theorem Supported.mono (unlinking : S.Unlinking w v) (announces : S.announces) {r : Ref .module}
    (live : w.heap.Live r) (supported : S.Supported w r) : S.Supported v r := by
  obtain ⟨ds, depends, all⟩ := supported
  refine ⟨ds, (unlinking.retains announces).dependsOn unlinking.endures live depends, fun x mem => ?_⟩
  obtain ⟨d, is, published, cached⟩ := all x mem
  exact ⟨d, is, (published_iff unlinking announces).mpr published, unlinking.lasting.cached cached⟩

theorem Newly.continued {r : Ref .module} (newly : S.Newly w r) (continues : S.Continues w v) :
    S.Newly v r := by
  have name := continues.modules r newly.live
  refine ⟨?_, continues.endures.live newly.live, ?_, fun announces => ?_⟩
  · rw [name]
    exact newly.chronicle.continued continues
  · rw [name, continues.entries, newly.entry]
  · exact (newly.supported announces).mono continues.toUnlinking announces newly.live

/-! ## The cache -/

theorem entry?_cached (stands : S.Stands w) (n s : String) (r : Ref .module) :
    S.entry? (S.cached w n r) s = if s = n then some r else S.entry? w s := by
  unfold entry? cached
  rw [World.get_set _ _ _ stands.manager, if_pos rfl]
  exact Assoc.get?_insert _ _ _ _

theorem cached_cached (stands : S.Stands w) (n s : String) (r : Ref .module) :
    S.Cached (S.cached w n r) s ↔ S.Cached w s ∨ s = n := by
  have entries := entry?_cached stands n s r
  unfold entry? at entries
  unfold Cached
  rw [entries]
  by_cases is : s = n <;> simp [is]

theorem lasting_cached (stands : S.Stands w) (n : String) (r : Ref .module) :
    S.Lasting w (S.cached w n r) := by
  obtain ⟨preserves, retains⟩ := World.preserves_ofGet (v := S.cached w n r)
    (evolves_cached w n r).endures fun o kind => get_cached o (by rintro rfl; simp at kind)
  exact ⟨preserves, fun _ => retains, fun known => (cached_cached stands n _ r).mpr (.inl known)⟩

theorem newly_cached (chronicle : S.Chronicle none w) {r : Ref .module} (live : w.heap.Live r)
    (supported : S.announces → S.Supported w r) :
    S.Newly (S.cached w (w.heap.get r).name r) r := by
  let n := (w.heap.get r).name
  have stands := chronicle.stands
  have same {k : Kind} (o : Ref k) (ne : k ≠ .manager) :
      (S.cached w n r).heap.get o = w.heap.get o := get_cached o ne
  have manager : (S.cached w n r).heap.get S.manager = { w.heap.get S.manager with
      modules := (w.heap.get S.manager).modules.insert n r } := by
    unfold cached
    rw [World.get_set _ _ _ stands.manager, if_pos rfl]
  have published (s : String) : (S.cached w n r).Published s ↔ w.Published s := .rfl
  have lasting := lasting_cached stands n r
  have preserves := lasting.toPreserves
  have name : ((S.cached w n r).heap.get r).name = n := by rw [same r (by decide)]
  refine
    { chronicle :=
        { stands := stands.mono (evolves_cached w n r)
          linker := by rw [manager]; exact chronicle.linker
          bus := by rw [manager]; exact chronicle.bus
          filed := fun {k p} found => ?_
          tasks := fun {t b} task => ?_
          done := fun {f d x} activity done => ?_
          cached := fun announces s => ?_ }
      live := preserves.endures.live live
      entry := ?_
      supported := fun announces => ?_ }
  · unfold Site.record? at found
    rw [same S.store (by decide)] at found
    obtain ⟨s, is, belongs⟩ := chronicle.filed found
    exact ⟨s, is, belongs.mono preserves⟩
  · unfold World.task? at task
    rw [same t (by decide)] at task
    exact (chronicle.tasks task).mono preserves
  · rw [same f (by decide)] at activity done
    exact chronicle.done activity done
  · rw [cached_cached stands, published, chronicle.cached announces s, name]
    simp [n, eq_comm]
  · rw [name, entry?_cached stands, if_pos rfl]
  · obtain ⟨ds, depends, all⟩ := supported announces
    refine ⟨ds, (lasting.retains announces).dependsOn lasting.endures live depends, fun x mem => ?_⟩
    obtain ⟨d, is, told, known⟩ := all x mem
    exact ⟨d, is, (published d).mpr told, (cached_cached stands n d r).mpr (.inl known)⟩

/-! ## Linking a module -/

structure Linked (S : Desk) (r : Ref .module) (w : World) (o : Outcome) (v : World) : Prop where
  closes : S.Closes v (.invoke (.library .linkModule) [.obj .manager S.manager, .obj .module r]) o
  active : ∀ t, v.current = some t → v.Active t
  stays : S.Stays (· ≠ (w.heap.get r).name) w v

theorem Recounts.unlinked {r : Ref .module} (recounts : S.Recounts scope w v)
    (among : ∀ s, s ≠ (w.heap.get r).name → scope s) (e : Ref .failure) :
    S.Linked r w (.error e) v :=
  ⟨recounts.telling.chronicle, recounts.telling.active, recounts.stays.mono fun _ => among⟩

def Complete (S : Desk) (deps : List Value) (w : World) : Prop :=
  ∀ x ∈ deps, ∃ d, x = .str d ∧ S.Cached w d

theorem Complete.mono {deps : List Value} (complete : S.Complete deps w) (lasting : S.Lasting w v) :
    S.Complete deps v := fun x mem =>
  (complete x mem).imp fun _ ⟨is, cached⟩ => ⟨is, lasting.cached cached⟩

theorem Complete.supported {deps : List Value} {r : Ref .module} (complete : S.Complete deps w)
    (chronicle : S.Chronicle none w) (announces : S.announces) (depends : w.DependsOn r deps) :
    S.Supported w r := by
  refine ⟨deps, depends, fun x mem => ?_⟩
  obtain ⟨d, is, cached⟩ := complete x mem
  exact ⟨d, is, ((chronicle.cached announces d).mp cached).resolve_right (by simp), cached⟩

theorem recites_codes (telling : S.Telling w) (deps : List Value) :
    S.Recites host scope a
      (deps.mapM fun dep => do codeOf (← Linker.dependency (.obj .manager S.manager) dep))
      (Ok fun _ v => S.Complete deps v) w := by
  refine (goes_mapM (J := fun _ => True) (R := fun x _ v => ∃ d, x = .str d ∧ S.Cached v d) telling
    trivial (fun dep _ v recounts _ => ?_) fun ⟨d, is, cached⟩ recounts =>
      ⟨d, is, (Recounts.lasting recounts).cached cached⟩).mono fun o v _ done => ?_
  · refine goes_bind (recites_dependency (Recounts.telling recounts) dep) fun x u recounts provided => ?_
    obtain ⟨d, is, cached⟩ := provided.cached
    exact goes_quiet (Recounts.telling recounts) fun y u _ recounts =>
      ⟨trivial, d, is, (Recounts.lasting recounts).cached cached⟩
  · cases o with
    | error e => trivial
    | ok codes =>
      intro x mem
      obtain ⟨_, -, known⟩ := exists_right done.2 mem
      exact known

theorem recites_each (telling : S.Telling w) (deps : List Value) :
    S.Recites host scope a
      (deps.forM fun dep => do let _ ← Linker.dependency (.obj .manager S.manager) dep)
      (Ok fun _ v => S.Complete deps v) w :=
  goes_forAll telling (fun dep _ _ recounts =>
      goes_bind (recites_dependency (Recounts.telling recounts) dep) fun _ _ recounts provided =>
        goes_done (Recounts.telling recounts) provided.cached)
    fun ⟨d, is, cached⟩ recounts => ⟨d, is, (Recounts.lasting recounts).cached cached⟩

theorem fair_same (lasting : S.Lasting w v) (current : v.current = w.current)
    (futures : ∀ f : Ref .future, v.heap.get f = w.heap.get f) : (S.linking host).Fair w v where
  evolves := lasting
  current := current
  spares t _ := World.Mild.ofGet (futures t)
  rely _ _ _ := trivial
  born t none task := by
    unfold World.task? at none task
    rw [futures t] at task
    exact absurd none task

theorem active_same (current : v.current = w.current)
    (futures : ∀ f : Ref .future, v.heap.get f = w.heap.get f)
    (active : ∀ t, w.current = some t → w.Active t) : ∀ t, v.current = some t → v.Active t :=
  fun t own => (active t (current.symm.trans own)).ofMild (.ofGet (futures t))

theorem safe_caching {r : Ref .module} {f : Unit → Routine Value}
    {Q : Outcome → World → Prop} (telling : S.Telling w) (live : w.heap.Live r)
    (supported : S.announces → S.Supported w r)
    (next : ∀ v, S.Newly v r → v.current = w.current → (∀ t, v.current = some t → v.Active t) →
      S.Stays (· ≠ (w.heap.get r).name) w v → (S.linking host).Safe a Q (f ()) v) :
    (S.linking host).Safe a Q ((Routine.edit (Manager.cache S.manager (.obj .module r))).bind f) w := by
  let v := S.cached w (w.heap.get r).name r
  have stands := telling.chronicle.stands
  have ends : (Manager.cache S.manager (.obj .module r)).after w = (.ok (), v) := rfl
  have futures (f : Ref .future) : v.heap.get f = w.heap.get f := get_cached f (by decide)
  refine safe_bind (Q := fun o u => o = .ok () ∧ u = v) (safe_edit fun _ => ?_) ?_ ?_
  · rw [ends]
    exact ⟨⟨stands.mono (evolves_cached w _ r), fun _ => ⟨[], (List.append_nil _).symm, by simp⟩⟩,
      fair_same (lasting_cached stands _ r) rfl futures, rfl, rfl⟩
  · rintro ⟨⟩ u ⟨-, rfl⟩
    refine next v (newly_cached telling.chronicle live supported) rfl
      (active_same rfl futures telling.active) fun _ s q ne entry => ?_
    rw [entry?_cached stands, if_neg ne]
    exact entry
  · rintro e u ⟨is, -⟩
    cases is

theorem safe_before {r : Ref .module} {x : Routine α} {f : α → Routine Value}
    {R : Except (Ref .failure) α → World → Prop} (before : S.Recounts (fun _ => True) u w)
    (goes : S.Recites host (fun _ => True) a x R w)
    (next : ∀ y v, S.Recounts (fun _ => True) u v → S.Recounts (fun _ => True) w v → R (.ok y) v →
      (S.linking host).Safe a (S.Linked r u) (f y) v) :
    (S.linking host).Safe a (S.Linked r u) (x.bind f) w :=
  safe_bind goes (fun y v ⟨recounts, holds⟩ => next y v (before.trans recounts) recounts holds)
    fun e _ ⟨recounts, _⟩ => (before.trans recounts).unlinked (fun _ _ => trivial) e

theorem recites_quiet (telling : S.Telling w) (x : Quiet α) :
    S.Recites host scope a (liftM x) (Ok fun y v => x.run w = (.ok y, v)) w :=
  goes_quiet telling fun _ _ run _ => run

theorem safe_linker {r : Ref .module} (telling : S.Telling w) (linkable : S.Linkable w r) :
    (S.linking host).Safe a (S.Linked r w)
      (Linker.link (.obj .manager S.manager) (.obj .module r)) w := by
  have live := linkable.live
  -- both branches end by caching the module, when all of its dependencies are there
  have last {c : Module} {deps : List Value} {v : World} (recounts : S.Recounts (fun _ => True) w v)
      (depends : S.announces → w.DependsOn r deps) (complete : S.Complete deps v) :
      (S.linking host).Safe a (S.Linked r w) (do
        Manager.cache (← asManager (.obj .manager S.manager)) (.obj .module r)
        debug "linker.linked" [("module", .str c.name), ("deps", (← Edit.read r).deps)]
        return .obj .module r : Routine Value) v := by
    refine safe_before recounts (recites_quiet recounts.telling _) fun m u recounts later run => ?_
    cases run
    have lasting := recounts.lasting
    have supported (announces : S.announces) : S.Supported v r :=
      complete.supported recounts.telling.chronicle announces
        ((lasting.retains announces).dependsOn lasting.endures live (depends announces))
    refine safe_caching recounts.telling (lasting.endures.live live) supported
      fun x newly current active stays => ?_
    refine safe_looking newly.chronicle.stands active rfl fun first active' => ?_
    refine safe_looking first.stands active' rfl fun second active'' => ?_
    have name := lasting.modules r live
    have kept : S.Stays (fun _ => True) x _ := .ofUnlinking (first.trans second).toUnlinking
    refine ⟨⟨rfl, newly.continued (first.trans second).toContinues⟩, active'', ?_⟩
    rw [← name]
    exact ((recounts.stays.mono fun _ _ _ => trivial).trans stays).trans
      (kept.mono fun _ _ _ => trivial)
  unfold Linker.link
  refine safe_before (.refl telling) (recites_quiet telling _) fun c v recounts later run => ?_
  cases run
  refine safe_before recounts (recites_quiet recounts.telling _) fun deps v recounts later run => ?_
  have depends (announces : S.announces) : w.DependsOn r deps := by
    obtain ⟨ds, l, is, listed, rfl⟩ := linkable.depends announces
    obtain ⟨items, -⟩ := run_items run
    rw [is] at items
    obtain rfl := Option.some.inj items
    exact ⟨l, is, listed, rfl⟩
  have telling := recounts.telling
  split
  · refine safe_before recounts (recites_codes telling deps) fun codes v recounts later complete => ?_
    have made : S.Recites host (fun _ => True) a
        (Routine.perform (.produce (w.heap.get r).factory codes)) Any v :=
      goes_granted (grants_produce recounts.telling _ _)
    refine safe_before recounts made fun code v recounts later' _ => ?_
    have complete := complete.mono later'.lasting
    refine safe_before recounts (recites_quiet recounts.telling _) fun _ v recounts later run => ?_
    exact last recounts depends (complete.mono later.lasting)
  · exact safe_before recounts (recites_each telling deps) fun _ v recounts _ complete =>
      last recounts depends complete

/-! ## Announcing it -/

structure Latest (S : Desk) (r : Ref .module) (w v : World) : Prop where
  newly : S.Newly v r
  lasting : S.Lasting w v
  current : v.current = w.current
  active : ∀ t, v.current = some t → v.Active t
  stays : S.Stays (· ≠ (w.heap.get r).name) w v

theorem Latest.name {r : Ref .module} (latest : S.Latest r w v) (live : w.heap.Live r) :
    (v.heap.get r).name = (w.heap.get r).name := latest.lasting.modules r live

theorem safe_managerLink {r : Ref .module} (telling : S.Telling w) (linkable : S.Linkable w r) :
    (S.linking host).Safe a (fun o v => match o with
        | .ok x => x = .obj .module r ∧ S.Latest r w v
        | .error _ => S.Recounts (· ≠ (w.heap.get r).name) w v)
      (Manager.link S.manager (.obj .module r)) w := by
  unfold Manager.link
  refine safe_looking telling.chronicle.stands telling.active rfl fun _ _ => ?_
  rw [telling.chronicle.linker]
  refine safe_bind (Q := fun o v => match o with
        | .ok x => x = .obj .module r ∧ S.Latest r w v
        | .error _ => S.Recounts (· ≠ (w.heap.get r).name) w v) ?_ ?_ fun _ _ recounts => recounts
  · intro expected
    have entrusts : S.Entrusts a w _ := expected
    have admitted : S.Admitted w _ :=
      .inr (.inl ⟨_, _, .inl rfl, entrusts.permitted _ _ (.inl rfl)⟩)
    refine ⟨⟨telling, admitted, entrusts.makes, fun q is => ?_, fun _ l x => by simp⟩,
      fun o v lasting current post => ?_⟩
    · rcases is with ⟨m, is⟩ | ⟨l, is⟩
      · cases is
        exact linkable
      · cases is
    · obtain ⟨closes, active, stays, -⟩ := post
      have stays := stays id
      cases o with
      | ok x => exact ⟨closes.1, closes.2, lasting, current, active, stays⟩
      | error e => exact ⟨⟨closes, active⟩, lasting, current, stays⟩
  · rintro x v ⟨rfl, latest⟩
    exact ⟨rfl, latest⟩

theorem lasting_announced (w : World) (e : Emission) :
    w.Evolves (w.announced e) ∧ S.Lasting w (w.announced e) := by
  have evolves := ((World.Slight.announced w e).loose.still fun _ _ => rfl).evolves
  obtain ⟨preserves, retains⟩ := World.preserves_ofGet evolves.endures fun _ _ => rfl
  exact ⟨evolves, preserves, fun _ => retains, id⟩

theorem published_announced {e : Emission} {n : String} (link : e.id = .str Event.link)
    (is : e.event = .linked (.str n)) (s : String) :
    (w.announced e).Published s ↔ w.Published s ∨ n = s := by
  constructor
  · rintro ⟨f, mem, told, same⟩
    rcases List.mem_append.mp mem with old | new
    · exact .inl ⟨f, old, told, same⟩
    · obtain rfl := List.mem_singleton.mp new
      rw [is] at same
      cases same
      exact .inr rfl
  · rintro (⟨f, mem, told, same⟩ | rfl)
    · exact ⟨f, List.mem_append_left _ mem, told, same⟩
    · exact ⟨e, List.mem_append_right _ (List.mem_singleton_self e), link, is⟩

theorem Newly.announced {r : Ref .module} (newly : S.Newly w r) {e : Emission}
    (link : e.id = .str Event.link) (is : e.event = .linked (.str (w.heap.get r).name)) :
    S.Chronicle none (w.announced e) := by
  obtain ⟨chronicle, -, -, -⟩ := newly
  obtain ⟨evolves, lasting⟩ := lasting_announced (S := S) w e
  have preserves := lasting.toPreserves
  exact
    { stands := chronicle.stands.mono evolves
      linker := chronicle.linker
      bus := chronicle.bus
      filed := fun found => by
        obtain ⟨s, same, belongs⟩ := chronicle.filed found
        exact ⟨s, same, belongs.mono preserves⟩
      tasks := fun task => (chronicle.tasks task).mono preserves
      done := chronicle.done
      cached := fun announces s => by
        rw [published_announced link is]
        exact (chronicle.cached announces s).trans (by simp) }

theorem steps_announced {r : Ref .module} {b : Ref .bus} (latest : S.Latest r w v)
    {e : Emission} (is : e = ⟨b, .str Event.link, .linked (.str (v.heap.get r).name)⟩) :
    (S.linking host).move a v (v.announced e) ∧ (S.linking host).Fair v (v.announced e) ∧
      S.Recounts (· ≠ (w.heap.get r).name) w (v.announced e) := by
  obtain ⟨newly, before, current, active, stays⟩ := latest
  have event : e.event = .linked (.str (v.heap.get r).name) := by rw [is]
  obtain ⟨evolves, lasting⟩ : v.Evolves (v.announced e) ∧ S.Lasting v (v.announced e) :=
    lasting_announced v e
  refine ⟨⟨newly.chronicle.stands.mono evolves, fun announces => ⟨[e], rfl, fun f mem _ => ?_⟩⟩,
    fair_same lasting rfl fun _ => rfl,
    ⟨newly.announced (by rw [is]) event, active_same rfl (fun _ => rfl) active⟩, before.trans lasting,
    current, stays.trans fun _ _ _ _ => id⟩
  obtain rfl := List.mem_singleton.mp mem
  exact ⟨r, event, newly.entry, newly.supported announces⟩

structure Told (S : Desk) (r : Ref .module) (w v : World) : Prop where
  recounts : S.Recounts (· ≠ (w.heap.get r).name) w v
  cached : S.Cached v (w.heap.get r).name
  entry : S.holds → S.entry? v (w.heap.get r).name = some r

theorem Told.later {r : Ref .module} {y : World} (told : S.Told r w v)
    (later : S.Recounts (fun _ => True) v y) : S.Told r w y :=
  ⟨told.recounts.trans (later.mono fun _ _ _ => trivial), later.lasting.cached told.cached,
    fun holds => later.stays holds _ _ trivial (told.entry holds)⟩

theorem Newly.cached {r : Ref .module} (newly : S.Newly w r) : S.Cached w (w.heap.get r).name :=
  cached_of_entry newly.entry

theorem Latest.untold {r : Ref .module} (latest : S.Latest r w v) (live : w.heap.Live r)
    (silent : ¬ S.announces) : S.Told r w v := by
  obtain ⟨chronicle, -, entry, -⟩ := latest.newly
  have complete : S.Chronicle none v :=
    { chronicle with cached := fun announces => absurd announces silent }
  rw [latest.name live] at entry
  exact ⟨⟨⟨complete, latest.active⟩, latest.lasting, latest.current, latest.stays⟩,
    cached_of_entry entry, fun _ => entry⟩

theorem safe_announcing {r : Ref .module} (latest : S.Latest r w v) (live : w.heap.Live r) :
    (S.linking host).Safe a (fun _ y => S.Told r w y) (Bus.emitOn (v.heap.get S.manager).events
      (.str Event.link) (.linked (.str (v.heap.get r).name))) v := by
  unfold Bus.emitOn
  split
  · next b _ =>
    unfold Bus.emit
    refine safe_bind (Q := fun _ y => S.Told r w y)
      (safe_bind (Q := fun o y => o = .ok () ∧ S.Told r w y) (safe_edit fun _ => ?_) ?_
        (by simp)) (fun _ _ told => told) fun _ _ told => told
    · obtain ⟨move, fair, recounts⟩ := steps_announced latest rfl
      refine ⟨move, fair, rfl, recounts, ?_, fun _ => ?_⟩ <;> rw [← latest.name live]
      · exact latest.newly.cached
      · exact latest.newly.entry
    · rintro ⟨⟩ y ⟨-, told⟩
      have within := Routine.within_handOut (w := y) telling_confiding b Event.link
        (.linked (.str (v.heap.get r).name)) trivial
      exact Safe.mono (recites_confiding told.recounts.telling within) fun _ z ⟨later, _⟩ =>
        told.later later
  · next other =>
    have silent : ¬ S.announces := fun announces => by
      obtain ⟨b, is⟩ := latest.newly.chronicle.bus announces
      exact other b is
    have told := latest.untold live silent
    exact Safe.mono (goes_raise (Q := Any) (C := S.recounting host fun _ => True) told.recounts.telling)
      fun _ z ⟨later, _⟩ => told.later later

theorem recites_link {module : Value} {s : String} (telling : S.Telling w)
    (vetted : ∀ r, module = .obj .module r → S.Linkable w r ∧ (w.heap.get r).name = s)
    (among : S.holds → ∀ n, scope n → n ≠ s) :
    S.Recites host scope a (Loader.link S.loader module)
      (Ok fun x v => S.Provided v (.str s) x) w := by
  unfold Loader.link
  split
  case h_2 => exact recites_first telling fun _ _ _ recounts => goes_raise recounts.telling
  next r =>
  obtain ⟨linkable, rfl⟩ := vetted r rfl
  refine recites_first telling fun c v run recounts => ?_
  cases run
  refine recites_first telling fun m v run recounts => ?_
  rw [run_managerOf telling.chronicle.stands] at run
  cases run
  refine recites_first telling fun pending v _ recounts => ?_
  have last {v : World} (recounts : S.Recounts scope w v) : S.Recites host scope a (do
      let linked ← Manager.link S.manager (.obj .module r)
      Bus.emitOn (← Edit.read S.manager).events (.str Event.link) (.linked (← nameOf linked))
      return linked : Routine Value) (Ok fun x v => S.Provided v (.str (w.heap.get r).name) x) v := by
    have name := linkable.name recounts.lasting
    rw [← name]
    rw [← name] at among
    have linkable := linkable.mono recounts.lasting
    refine safe_bind (safe_managerLink recounts.telling linkable) (fun x u ⟨is, latest⟩ => ?_)
      fun e u later => ⟨later.mono among, trivial⟩
    subst is
    have stands := latest.newly.chronicle.stands
    refine safe_looking stands latest.active rfl fun _ _ => ?_
    refine safe_looking stands latest.active rfl fun _ _ => ?_
    refine safe_bind (safe_announcing latest linkable.live) (fun _ y told => ?_) fun e y told => ?_
    · exact ⟨told.recounts.mono among, _, r, rfl, rfl, told.cached, told.entry⟩
    · exact ⟨told.recounts.mono among, trivial⟩
  cases pending with
  | true =>
    exact goes_bind (recites_confiding recounts.telling
      (Routine.within_reportRegistration telling_confiding _ _ trivial)) fun _ v later _ =>
        last (recounts.trans later)
  | false => exact last recounts

end AsyncImport.Desk
