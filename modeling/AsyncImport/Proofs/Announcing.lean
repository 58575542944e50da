import AsyncImport.Proofs.Charter
import AsyncImport.Proofs.Chronicle

/-!
# Announcing modules

What is expected of a host that leaves linking to the loader, and the protocol by which its manager
keeps the chronicle of links. The host may use the loader as it likes, file records itself and cancel
what it likes.
-/

namespace AsyncImport.Desk

open Site Edit Change Protocol

section

variable (S : Desk)

structure Linkable (w : World) (r : Ref .module) : Prop where
  live : w.heap.Live r
  depends : S.announces → ∃ ds, w.DependsOn r ds

def Supported (w : World) (r : Ref .module) : Prop :=
  ∃ ds, w.DependsOn r ds ∧ ∀ x ∈ ds, ∃ d, x = .str d ∧ w.Published d ∧ S.Cached w d

/-- An event announces a module that is cached under its name, after all of its dependencies. -/
def InOrder (w : World) (e : Emission) : Prop :=
  ∃ r : Ref .module, e.event = .linked (.str (w.heap.get r).name) ∧
    S.entry? w (w.heap.get r).name = some r ∧ S.Supported w r

/-- Whatever is announced is announced in order. -/
def Heeds (w v : World) : Prop :=
  ∃ es, v.emitted = w.emitted ++ es ∧ ∀ e ∈ es, e.id = .str Event.link → S.InOrder w e

structure Aside (w v : World) : Prop extends S.Unlinking w v where
  stands : S.Stands v
  current : v.current = w.current
  mild : ∀ t, w.task? t ≠ none → World.Mild t w v
  unfinished : w.Unfinished v
  filed : ∀ {k r}, S.record? v k = some r →
    S.record? w k = some r ∨ ∃ s, k = .text s ∧ Belongs v s r
  begun : ∀ {t a}, w.task? t = none → v.task? t = some a → (v.heap.get t).waitsFor? = none ∧
    (S.Public a ∨ ∃ x, a = .awaitValue x ∧ S.Awaited v x)

inductive Undertakes (w : World) : World → Prop
  | aside {v : World} (is : S.Aside w v) : Undertakes w v
  | load (name parent : Value) : Undertakes w ((Loader.load S.loader name parent).after w).2
  | fetch (name parent : Value) : Undertakes w ((Loader.fetch S.loader name parent).after w).2
  | register (name deps factory : Value) :
      Undertakes w ((Loader.register S.loader name deps factory).after w).2
  | declare (name deps factory : Value) :
      Undertakes w ((Manager.register S.manager name deps factory).after w).2
  | release (name : Value) : Undertakes w ((Loader.loadPending S.loader name).after w).2

/-- What may be carried out while linking is left to the loader. -/
structure Entrusts (a : Option Activity) (w : World) (b : Activity) : Prop extends S.Uses a w b where
  linker : ∀ args, b = .invoke (.library .linkModule) args → Linking a
  makes : ∀ args, b ≠ .produce (.library .linkModule) args
  links : ∀ l r, b = .link l (.obj .module r) → S.Linkable w r
  holds : S.holds → Hosted a → ∀ l x, b ≠ .link l x ∧ ∀ s, b = .buildNow l (.str s) → ¬ S.Cached w s

/-- What is expected of a host that leaves linking to the loader and keeps the names of drafts and
modules. -/
def linkage : Conduct where
  writes a w v := w.NamesKept v ∧ (Hosted a → S.Undertakes w v)
  calls := S.Entrusts
  pauses := S.usage.pauses
  awaits := S.usage.awaits
  ends a w o :=
    (∀ l s p d, a = some (.fetchDraft l (.str s) p) → o = .ok (.obj .draft d) →
      (w.heap.get d).name = .str s) ∧
    ∀ m d r, a = some (.compileStage m (.obj .draft d)) → o = .ok (.obj .module r) →
      S.Linkable w r ∧ (w.heap.get d).name = .str (w.heap.get r).name

structure Telling (w : World) : Prop where
  chronicle : S.Chronicle none w
  active : ∀ t, w.current = some t → w.Active t

structure Allows (w : World) (b : Activity) : Prop where
  admitted : S.Admitted w b
  makes : ∀ args, b ≠ .produce (.library .linkModule) args
  links : ∀ r, (∃ m, b = .invoke (.library .linkModule) [m, .obj .module r]) ∨
    (∃ l, b = .link l (.obj .module r)) → S.Linkable w r
  holds : S.holds → ∀ l x, b ≠ .link l x ∧ ∀ s, b = .buildNow l (.str s) → ¬ S.Cached w s

structure Newly (w : World) (r : Ref .module) : Prop where
  chronicle : S.Chronicle (some (w.heap.get r).name) w
  live : w.heap.Live r
  entry : S.entry? w (w.heap.get r).name = some r
  supported : S.announces → S.Supported w r

def Closes (w : World) : Activity → Outcome → Prop
  | .invoke (.library .linkModule) [_, .obj .module r], .ok x => x = .obj .module r ∧ S.Newly w r
  | _, _ => S.Chronicle none w

/-- A module, of a name that is cached. If its host leaves the cache alone, it is the one there. -/
def Provided (w : World) (name x : Value) : Prop :=
  ∃ s r, name = .str s ∧ x = .obj .module r ∧ S.Cached w s ∧ (S.holds → S.entry? w s = some r)

def Brings (w : World) : Activity → Value → Prop
  | .fetchDraft _ (.str s) _, x => Bears w s x
  | .loadDependencies _ draft, x => x = draft
  | .compileStage _ draft, x => ∃ d, draft = .obj .draft d ∧ ∀ r, x = .obj .module r →
    S.Linkable w r ∧ (w.heap.get d).name = .str (w.heap.get r).name
  | .require _ name, x | .build _ name, x | .buildNow _ name, x | .buildReported _ name, x
  | .buildFetched _ name _, x => S.Provided w name x
  | _, _ => True

def Leaving (w : World) : Activity → String → Prop
  | .invoke (.library .linkModule) [_, .obj .module r], s => s ≠ (w.heap.get r).name
  | _, _ => True

def Stays (scope : String → Prop) (w v : World) : Prop :=
  S.holds → ∀ s r, scope s → S.entry? w s = some r → S.entry? v s = some r

def linking (host : Host) : Protocol where
  body := host.meaning
  conduct := S.linkage
  ground _ := True
  inv := S.Chronicle none
  lasts := S.Lasting
  rely _ _ _ := True
  spares := World.Mild
  runs := World.Active
  born _ _ := True
  pre _ b w := S.Telling w ∧ S.Allows w b
  post b w o v := S.Closes v b o ∧ (∀ t, v.current = some t → v.Active t) ∧
    (¬ Suspends w b → S.Stays (Leaving w b) w v) ∧ ∀ x, o = .ok x → S.Brings v b x
  move _ w v := S.Stands v ∧ (S.announces → S.Heeds w v)
  leave t o w := ∀ a x, (w.heap.get t).activity? = some a → o = .ok x → S.Brings w a x

structure Recounts (scope : String → Prop) (w v : World) : Prop where
  telling : S.Telling v
  lasting : S.Lasting w v
  current : v.current = w.current
  stays : S.Stays scope w v

end

variable {S : Desk} {u v w : World} {host : Host} {α β : Type} {a : Option Activity}
  {scope : String → Prop}

/-! ## Steps that link nothing -/

theorem Stays.refl (scope : String → Prop) (w : World) : S.Stays scope w w := fun _ _ _ _ => id

theorem Stays.trans (first : S.Stays scope u w) (next : S.Stays scope w v) : S.Stays scope u v :=
  fun holds s r mem entry => next holds s r mem (first holds s r mem entry)

theorem Stays.mono {wider : String → Prop} (stays : S.Stays wider w v)
    (among : S.holds → ∀ s, scope s → wider s) : S.Stays scope w v :=
  fun holds s r mem => stays holds s r (among holds s mem)

theorem Stays.ofUnlinking (unlinking : S.Unlinking w v) : S.Stays scope w v := fun _ s _ _ entry =>
  (unlinking.entries s).trans entry

theorem cached_of_entry {s : String} {r : Ref .module} (entry : S.entry? w s = some r) :
    S.Cached w s := by
  unfold Cached
  rw [show (w.heap.get S.manager).modules.get? s = some r from entry]
  simp

namespace Recounts

theorem refl (telling : S.Telling w) : S.Recounts scope w w :=
  ⟨telling, .refl w, rfl, .refl scope w⟩

theorem trans (first : S.Recounts scope u w) (next : S.Recounts scope w v) :
    S.Recounts scope u v :=
  ⟨next.telling, first.lasting.trans next.lasting, next.current.trans first.current,
    first.stays.trans next.stays⟩

theorem mono {wider : String → Prop} (recounts : S.Recounts wider w v)
    (among : S.holds → ∀ s, scope s → wider s) : S.Recounts scope w v :=
  ⟨recounts.telling, recounts.lasting, recounts.current, recounts.stays.mono among⟩

end Recounts

theorem Heeds.ofSilent (unlinking : S.Unlinking w v) (announces : S.announces) : S.Heeds w v := by
  obtain ⟨es, emitted, silent⟩ := unlinking.silent announces
  exact ⟨es, emitted, fun e mem heralds => absurd heralds (silent e mem)⟩

theorem active_proceeds (proceeds : S.Proceeds w v) (active : ∀ t, w.current = some t → w.Active t) :
    ∀ t, v.current = some t → v.Active t := by
  intro t own
  have active := active t (proceeds.current.symm.trans own)
  exact active.ofMild (proceeds.mild t active.task?)

theorem Proceeds.fair (proceeds : S.Proceeds w v) : (S.linking host).Fair w v where
  evolves := proceeds.toUnlinking.lasting
  current := proceeds.current
  spares := proceeds.mild
  rely _ _ _ := trivial
  born t none task := ⟨trivial, proceeds.free t none task⟩

theorem Proceeds.recounts (proceeds : S.Proceeds w v) (telling : S.Telling w) :
    S.Recounts scope w v :=
  ⟨⟨telling.chronicle.continued proceeds.toContinues, active_proceeds proceeds telling.active⟩,
    proceeds.toUnlinking.lasting, proceeds.current, .ofUnlinking proceeds.toUnlinking⟩

theorem Proceeds.steps (proceeds : S.Proceeds w v) (telling : S.Telling w) :
    (S.linking host).move a w v ∧ (S.linking host).Fair w v ∧ S.Recounts scope w v :=
  ⟨⟨proceeds.stands, .ofSilent proceeds.toUnlinking⟩, proceeds.fair, proceeds.recounts telling⟩

/-! ## Passing the turn -/

theorem continues_turned (stands : S.Stands w) (passes : w.Passes v)
    (done : ∀ {f : Ref .future} {d : Ref .draft} {x : Value},
      (v.heap.get f).activity? = some (.loadDependencies S.loader (.obj .draft d)) →
      (v.heap.get f).status = .done x → (w.heap.get f).status = .done x ∨ x = .obj .draft d) :
    S.Continues w v where
  toUnlinking := .ofTurns stands passes.turns
  stands := stands.mono passes.turns.evolves
  filed found := by
    rw [(Same.ofTurns stands passes.turns).record?] at found
    exact .inl found
  tasks task := .inl (passes.task task)
  done {f d x} activity ends :=
    (done activity ends).imp_left fun before => ⟨(passes.follows f).activity.symm, before⟩

theorem continues_passed (stands : S.Stands w) (passes : w.Passes v)
    (kept : ∀ (f : Ref .future) x, (v.heap.get f).activity? ≠ none → (v.heap.get f).status = .done x →
      (w.heap.get f).status = .done x) : S.Continues w v :=
  continues_turned stands passes fun {f d x} activity done => .inl (kept f x (by simp [activity]) done)

theorem continues_resumed (stands : S.Stands w) (t : Ref .future) (jobs : List Job) :
    S.Continues w (w.resumed t jobs) :=
  continues_passed stands (World.passes_resumed w t jobs) fun f x _ done => by
    rwa [World.status_resumed] at done

theorem continues_paused (stands : S.Stands w) (t : Ref .future) : S.Continues w (w.paused t) :=
  continues_passed stands (World.passes_ofHeapEq rfl rfl rfl) fun _ _ _ => id

theorem continues_popped (stands : S.Stands w) (jobs : List Job) :
    S.Continues w { w with ready := jobs } :=
  continues_passed stands (World.passes_ofHeapEq rfl rfl rfl) fun _ _ _ => id

theorem done_before (passes : w.Passes v) {f : Ref .future} {x : Value}
    (task : (v.heap.get f).activity? ≠ none) (done : (v.heap.get f).status = .done x)
    (undone : w.task? f ≠ none → (v.heap.get f).status ≠ .done x) :
    (w.heap.get f).status = .done x := by
  have follows := passes.follows f
  by_cases waiting : (w.heap.get f).status = .waiting
  · refine absurd done (undone ?_)
    rw [follows.activity] at task
    unfold World.task?
    rwa [if_pos waiting]
  · rw [← follows.status waiting, done]

theorem continues_awaiting (stands : S.Stands w) {t f : Ref .future}
    (waiting : (w.heap.get f).status = .waiting) (active : w.Active t) (ne : t ≠ f) :
    S.Continues w (w.awaiting t f) := by
  have parked := World.parked_awaiting waiting active ne
  have passes : w.Passes (w.awaiting t f) := ⟨parked.turns, parked.old⟩
  refine continues_passed stands passes fun s x task done => done_before passes task done fun known => ?_
  obtain ⟨b, known'⟩ := Option.ne_none_iff_exists'.mp known
  have undone : ((w.awaiting t f).heap.get s).status = .waiting := by
    by_cases same : s = t
    · exact same ▸ parked.status
    · exact (parked.mild s same known).status.trans (World.task?_eq_some.mp known').1
  rw [undone]
  simp

theorem continues_reported (stands : S.Stands w) (g f : Ref .future) (jobs : List Job) :
    S.Continues w (Edit.report g f { w with ready := jobs }).2 := by
  have touches := World.touches_report g f { w with ready := jobs }
  have popped := continues_popped stands jobs
  refine popped.trans (continues_passed popped.stands touches.passes fun s x task done => ?_)
  refine done_before touches.passes task done fun known => ?_
  obtain ⟨b, known'⟩ := Option.ne_none_iff_exists'.mp known
  rw [(World.spares_report known).status, (World.task?_eq_some.mp known').1]
  simp

theorem continues_dropped (stands : S.Stands w) (t : Ref .future) (jobs : List Job) :
    S.Continues w (w.dropped t jobs) := by
  let u : World := { w.set t (w.heap.get t).goOn with ready := jobs }
  have going : S.Continues w u := continues_passed stands
    ⟨(World.Turns.setFuture w t _ (World.follows_goOn _)).trans (.ofHeapEq rfl rfl rfl),
      fun _ live => World.live_set.mp live⟩ fun f x _ done => by
        have same : (u.heap.get f).status = (w.heap.get f).status := World.status_resumed w t f jobs
        rwa [same] at done
  have touches : World.Touches t u (w.dropped t jobs) := .complete u .cancelled
  refine going.trans (continues_passed going.stands touches.passes fun f x _ done => ?_)
  rcases World.status_completed u t f .cancelled with kept | ended
  · exact kept.symm.trans done
  · exact absurd (ended.symm.trans done) (by simp)

theorem continues_ended (stands : S.Stands w) {t : Ref .future} {b : Activity} {o : Outcome}
    (activity : (w.heap.get t).activity? = some b)
    (brings : ∀ x, o = .ok x → S.Brings w b x) : S.Continues w (w.ended t o) := by
  have passes := World.passes_ended w t o
  refine continues_turned stands passes fun {f d x} known done => ?_
  by_cases same : f = t
  case neg =>
    rw [World.get_ended_ne w o same] at done
    exact .inl done
  subst same
  by_cases task : w.task? f = none
  · exact .inl (done_before passes (by simp [known]) done (absurd task))
  right
  obtain rfl := Option.some.inj (activity.symm.trans ((passes.follows f).activity.symm.trans known))
  rw [World.status_ended o task] at done
  unfold World.endStatus at done
  split at done
  · cases done
  · cases done
    exact brings x rfl
  · split at done <;> cases done

/-! ## The course -/

theorem recounts_failure (telling : S.Telling w) (f : Fault) :
    S.Recounts scope w (w.alloc .failure f) :=
  (proceeds_failure telling.chronicle.stands f).recounts telling

theorem recounts_woken {t : Ref .future} {x : World} {o : Outcome}
    (empty : S.holds → ∀ s, ¬ scope s)
    (own : w.current = some t) (turns : w.Turns x) (task : x.task? t ≠ none)
    (later : (S.linking host).Later t x u) (chronicle : S.Chronicle none u)
    (wakes : Wakes t u o v) : S.Recounts scope w v := by
  have mild : World.Mild t x u := later.spares
  have task : u.task? t ≠ none := by rwa [mild.task?]
  have lasting : S.Lasting w u := (Lasting.ofTurns turns).trans later.evolves
  have resumed {y : World} {jobs : List Job} (proceeds : S.Proceeds u y) :
      S.Recounts scope w (y.resumed t jobs) := by
    have last := continues_resumed proceeds.stands t jobs
    refine ⟨⟨(chronicle.continued proceeds.toContinues).continued last, fun s is => ?_⟩, ?_, own.symm,
      fun holds s _ mem => absurd mem (empty holds s)⟩
    · obtain rfl := Option.some.inj is
      exact (World.runs_resumed jobs (by rwa [(proceeds.mild t task).task?])).active
    · exact lasting.trans (proceeds.toUnlinking.lasting.trans last.toUnlinking.lasting)
  induction wakes with
  | step => exact resumed (.refl chronicle.stands)
  | react _ _ yields =>
    cases yields with
    | done | failed => exact resumed (.refl chronicle.stands)
    | cancelled => exact resumed (proceeds_failure chronicle.stands _)
  | cancelled _ _ recounts =>
    exact recounts.trans (recounts_failure recounts.telling _)

def recounting (S : Desk) (host : Host) (scope : String → Prop) : (S.linking host).Course where
  fine := S.Telling
  keeps := S.Recounts scope
  free _ := S.holds → ∀ s, ¬ scope s
  refl := .refl
  trans := Recounts.trans
  sound := Recounts.telling
  active telling own := telling.active _ own
  mild := id
  failure telling _ := recounts_failure telling _
  tame telling tame expected :=
    (Proceeds.ofTame telling.chronicle.stands tame expected.1).steps telling
  paused telling _ _ := telling.chronicle.continued (continues_paused telling.chronicle.stands _)
  awaiting telling _ own waiting ne := telling.chronicle.continued
    (continues_awaiting telling.chronicle.stands waiting (telling.active _ own) ne)
  woken _ empty own turns task later _ chronicle _ wakes :=
    recounts_woken empty own turns task later chronicle wakes

end AsyncImport.Desk
