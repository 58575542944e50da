import AsyncImport.Proofs.Soundness
import AsyncImport.Proofs.Stories

/-!
# Stories of a run

Whatever the threads of a machine do, each of them goes through the code of its own activities. So every
story that a run shows is told as the activities are meant (`Accounted.told`), and what holds of all
ways in which an activity may unfold holds of it in every run, however threads are interleaved. And a
task that has come to a value has told so (`Accounted.ended`).
-/

namespace AsyncImport

/-! ## Scenes and code -/

section

variable (body : Meaning)

namespace Scene

/-- However the code in focus goes on, the scene will have gone as its activity is meant. -/
structure Leads (c : Scene) (a : Activity) (code : Routine Value) (w : World) : Prop where
  request : c.request = .call a
  each : ∀ s ∈ c.parts, s.Told body
  unfolds : ∀ ⦃l o v⦄, code.Unfolds w l o v →
    ∃ past, (body a).Unfolds c.before (past ++ l) o v ∧ Story.Completes c.parts past
  adds : ¬ Hosted (some a) → code.Adding w

structure Waits (c : Scene) (a : Activity) (r : Request) (u : World) (next : Outcome → Routine Value) :
    Prop where
  request : c.request = .call a
  each : ∀ s ∈ c.parts, s.Told body
  unfolds : ∀ ⦃x w l o v⦄, (next x).Unfolds w l o v → ∃ past,
    (body a).Unfolds c.before (past ++ ⟨r, u, x, w⟩ :: l) o v ∧ Story.Completes c.parts past
  adds : ¬ Hosted (some a) → ∀ x w, (next x).Adding w

end Scene

/-- Scenes, each but the first waiting for the one above, with the frames that they go on by. At the
bottom is the activity of a task, or the routine of the host, which has a frame but no scene. -/
inductive Stacked : Option Activity → Request → World → List Scene → List Frame → Prop
  | task {a w} : Stacked (some a) (.call a) w [] []
  | host {r w next} : Stacked none r w [] [⟨none, next⟩]
  | frame {root r w a} {c : Scene} {cs next frames} (waits : c.Waits body a r w next)
      (below : Stacked root (.call a) c.before cs frames) :
      Stacked root r w (c :: cs) (⟨some a, next⟩ :: frames)

inductive Focused : Option Activity → World → List Scene → Focus → Prop
  | host {w code} : Focused none w [] ⟨none, none, code, []⟩
  | scene {root w a} {c : Scene} {cs t code frames} (leads : c.Leads body a code w)
      (below : Stacked body root (.call a) c.before cs frames) :
      Focused root w (c :: cs) ⟨t, some a, code, frames⟩

inductive Runner (w : World) : Option (Ref .future) → Option Activity → Prop
  | host : Runner w none none
  | task {t a} (active : w.Active t) (own : w.task? t = some a) : Runner w (some t) (some a)

inductive Expects (w : World) (t : Ref .future) (u : World) : Request → Prop
  | turn : Expects w t u .pause
  | future {f} (waits : (w.heap.get t).waitsFor? = some f) (reckons : u.Reckons w) :
      Expects w t u (.await f)

inductive Aside (w : World) (t : Ref .future) : List Scene → List Frame → Prop
  | intro {a r u cs k frames} (own : w.task? t = some a) (expects : Expects w t u r)
      (stacked : Stacked body (some a) r u cs (k :: frames)) :
      Aside w t ({ request := r, before := u } :: cs) (k :: frames)

/-- A task has ended, and its story says how. -/
def Log.Ended (log : Log) (t : Ref .future) (a : Activity) (x : Value) : Prop :=
  ∃ p ∈ (log.account (some t)).past, p.request = .call a ∧ ∃ v, p.answer = some (.ok x, v)

/-- The accounts of all threads are those of a machine. -/
structure Accounted (start : World) (m : Machine) (log : Log) : Prop where
  past : ∀ t, ∀ s ∈ (log.account t).past, s.Told body
  focus : ∀ x, m.focus = some x →
    ∃ root, Runner m.world x.owner root ∧ Focused body root m.world (log.account x.owner).scenes x
  aside : ∀ e ∈ m.waiting, Aside body m.world e.1 (log.account (some e.1)).scenes e.2
  apart : (m.waiting.map Prod.fst).Nodup
  away : ∀ x, m.focus = some x → ∀ e ∈ m.waiting, x.owner ≠ some e.1
  idle : ∀ t, (∀ x, m.focus = some x → x.owner ≠ t) → (∀ e ∈ m.waiting, t ≠ some e.1) →
    (log.account t).scenes = []
  ended : ∀ {t : Ref .future} {a x}, (m.world.heap.get t).activity? = some a →
    (m.world.heap.get t).status = .done x → (start.heap.get t).status = .done x ∨ log.Ended t a x

end

section

variable {body : Meaning} {c : Scene} {a : Activity} {r : Request} {u w v start : World}
  {next : Outcome → Routine Value} {root : Option Activity} {m n : Machine} {log : Log}

namespace Scene

theorem leads_begun (adds : ¬ Hosted (some a) → (body a).Adds) (w : World) :
    Leads body { request := .call a, before := w } a (body a) w where
  request := rfl
  each := by simp
  unfolds _ _ _ unfolds := ⟨[], unfolds, .nil⟩
  adds inner := adds inner w

theorem Leads.read {k : World → Routine Value} (leads : c.Leads body a (.read k) w) :
    c.Leads body a (k w) w :=
  ⟨leads.request, leads.each, fun _ _ _ unfolds => leads.unfolds (.read unfolds), leads.adds⟩

theorem Leads.write {k : Routine Value} (leads : c.Leads body a (.write u k) w) : c.Leads body a k u :=
  ⟨leads.request, leads.each, fun _ _ _ unfolds => leads.unfolds (.write unfolds),
    fun inner => (leads.adds inner).2⟩

theorem Leads.asks {code : Routine Value} (leads : c.Leads body a code u)
    (asks : ∀ ⦃x w l o v⦄, (next x).Unfolds w l o v → code.Unfolds u (⟨r, u, x, w⟩ :: l) o v)
    (adds : code.Adding u → ∀ x w, (next x).Adding w) : c.Waits body a r u next :=
  ⟨leads.request, leads.each, fun _ _ _ _ _ unfolds => leads.unfolds (asks unfolds),
    fun inner => adds (leads.adds inner)⟩

theorem Waits.answered {s : Story} {x : Outcome} (waits : c.Waits body a r u next)
    (told : s.Told body) (tells : s.Tells ⟨r, u, x, w⟩) (closed : s.Closed) :
    (c.add s).Leads body a (next x) w where
  request := waits.request
  each := List.forall_mem_append.mpr ⟨waits.each, by simpa using told⟩
  unfolds l o v unfolds := by
    obtain ⟨past, whole, completes⟩ := waits.unfolds unfolds
    exact ⟨past ++ [⟨r, u, x, w⟩], by simpa [add] using whole,
      Story.completes_snoc completes tells closed⟩
  adds inner := waits.adds inner x w

theorem Leads.ended {code : Routine Value} {o : Outcome} (leads : c.Leads body a code w)
    (ends : code.Unfolds w [] o w) : (c.story [] (some (o, w))).Told body := by
  obtain ⟨past, whole, completes⟩ := leads.unfolds ends
  rw [List.append_nil] at whole
  simp only [story, List.append_nil, leads.request]
  exact .ended whole completes leads.each

theorem Leads.unfinished {code : Routine Value} (leads : c.Leads body a code w) :
    (c.story [] none).Told body := by
  -- How the code is going to end is open, so that any end will do.
  obtain ⟨l, o, v, unfolds, -⟩ := Routine.exists_unfolds code (fun _ _ w => (.ok .none, w)) w
  obtain ⟨past, whole, completes⟩ := leads.unfolds unfolds
  simp only [story, List.append_nil, leads.request]
  exact .unfinished whole completes.begins leads.each

theorem Waits.unfinished {s : Story} (waits : c.Waits body a r u next) (told : s.Told body)
    (request : s.request = r) (before : s.before = u) (answer : s.answer = none) :
    (c.story [s] none).Told body := by
  have tells : s.Tells ⟨r, u, .ok .none, u⟩ := ⟨request, before, by simp [answer]⟩
  obtain ⟨l, o, v, unfolds, -⟩ :=
    Routine.exists_unfolds (next (.ok .none)) (fun _ _ w => (.ok .none, w)) u
  obtain ⟨past, whole, completes⟩ := waits.unfolds unfolds
  simp only [story, waits.request]
  exact .unfinished whole (completes.begins_snoc tells)
    (List.forall_mem_append.mpr ⟨waits.each, by simpa using told⟩)

end Scene

/-! ## Accounts -/

def Log.note (log : Log) (s : Option (Ref .future)) (ks : List Mark) : Log := log ++ ks.map fun k => (s, k)

theorem account_note (log : Log) (s t : Option (Ref .future)) (ks : List Mark) :
    (log.note s ks).account t = if s = t then ks.foldl Account.note (log.account t) else log.account t := by
  unfold Log.note Log.account
  rw [List.foldl_append]
  generalize log.foldl _ _ = a
  induction ks generalizing a with
  | nil => simp
  | cons k ks ih =>
    rw [List.map_cons, List.foldl_cons, ih]
    split <;> rfl

theorem account_own (log : Log) (s : Option (Ref .future)) (ks : List Mark) :
    (log.note s ks).account s = ks.foldl Account.note (log.account s) := by
  rw [account_note, if_pos rfl]

theorem past_add (a : Account) (s : Story) : a.past ⊆ (a.add s).past := by
  unfold Account.add
  split
  · exact List.subset_append_left _ _
  · exact List.Subset.refl _

theorem past_note (log : Log) (s t : Option (Ref .future)) (ks : List Mark) :
    (log.account t).past ⊆ ((log.note s ks).account t).past := by
  rw [account_note]
  split
  · generalize log.account t = a
    induction ks generalizing a with
    | nil => exact List.Subset.refl _
    | cons k ks ih =>
      refine List.Subset.trans ?_ (ih _)
      cases k with
      | opens => exact List.Subset.refl _
      | closes o v =>
        obtain ⟨_ | ⟨c, cs⟩, past⟩ := a
        · exact List.Subset.refl _
        · exact past_add ⟨cs, past⟩ _
  · exact List.Subset.refl _

theorem Log.Ended.note {t : Ref .future} {x : Value} (ended : log.Ended t a x) (s : Option (Ref .future))
    (ks : List Mark) : (log.note s ks).Ended t a x := by
  obtain ⟨p, mem, is⟩ := ended
  exact ⟨p, past_note log s _ ks mem, is⟩

/-- The stories of scenes that wait for each other, within each other. -/
theorem told_unfinished {cs : List Scene} {frames : List Frame} {s : Story}
    (stacked : Stacked body root r u cs frames) (told : s.Told body) (request : s.request = r)
    (before : s.before = u) (answer : s.answer = none) :
    ∀ p ∈ Account.unfinished [s] cs, p.Told body := by
  induction stacked generalizing s with
  | task | host => simpa [Account.unfinished] using told
  | frame waits _ ih => exact ih (waits.unfinished told request before answer) waits.request rfl rfl

theorem Expects.told {t : Ref .future} (expects : Expects w t u r) : (Story.mk r u [] none).Told body := by
  cases expects with
  | turn => exact .pause
  | future => exact .await nofun

theorem Accounted.told (accounted : Accounted body start m log) {s : Story} (shows : log.Shows s) :
    s.Told body := by
  obtain ⟨t, p, mem, occurs⟩ := shows
  refine Story.Told.occurs ?_ occurs
  -- The thread is in focus, or was set aside, or has nothing unfinished.
  rcases List.mem_append.mp mem with past | open_
  · exact accounted.past t p past
  by_cases focused : ∃ x, m.focus = some x ∧ x.owner = t
  · obtain ⟨x, focus, rfl⟩ := focused
    obtain ⟨root, -, runs⟩ := accounted.focus x focus
    generalize (log.account x.owner).scenes = cs at runs open_
    cases runs with
    | host => simp [Account.unfinished] at open_
    | scene leads below => exact told_unfinished below leads.unfinished leads.request rfl rfl p open_
  by_cases waits : ∃ e ∈ m.waiting, t = some e.1
  · obtain ⟨e, waiting, rfl⟩ := waits
    have aside := accounted.aside e waiting
    generalize (log.account (some e.1)).scenes = cs at aside open_
    generalize e.2 = frames at aside
    cases aside with
    | intro _ expects stacked => exact told_unfinished stacked expects.told rfl rfl rfl p open_
  · have idle := accounted.idle t (fun x focus own => focused ⟨x, focus, own⟩)
      fun e mem is => waits ⟨e, mem, is⟩
    simp [idle, Account.unfinished] at open_

/-! ## Steps -/

theorem Runner.mono {t : Option (Ref .future)} (minds : w.Minds none v) (runner : Runner w t root) :
    Runner v t root := by
  cases runner with
  | host => exact .host
  | task active own =>
    have mild := minds.mild _ (by simp) active.task?
    exact .task (active.ofMild mild) (mild.task?.trans own)

theorem Aside.own {t : Ref .future} {cs : List Scene} {frames : List Frame}
    (aside : Aside body w t cs frames) : ∃ a, w.task? t = some a := by
  cases aside with
  | intro own => exact ⟨_, own⟩

theorem Aside.mono {s : Option (Ref .future)} {t : Ref .future} {cs : List Scene} {frames : List Frame}
    (minds : w.Minds s v) (other : some t ≠ s) (aside : Aside body w t cs frames) :
    Aside body v t cs frames := by
  cases aside with
  | intro own expects stacked =>
    have mild := minds.mild t other (by simp [own])
    refine .intro (mild.task?.trans own) ?_ stacked
    cases expects with
    | turn => exact .turn
    | future waits reckons => exact .future (mild.waitsFor.trans waits) (reckons.trans minds.reckons)

section

variable {x y : Focus} {t : Ref .future} {s : Option (Ref .future)} {ks : List Mark}
  (accounted : Accounted body start m log)
include accounted

/-! Where only one thread does something, all others have the accounts that they had. -/

theorem Accounted.past_note (past : ∀ p ∈ (ks.foldl Account.note (log.account s)).past, p.Told body)
    (t : Option (Ref .future)) : ∀ p ∈ ((log.note s ks).account t).past, p.Told body := by
  rw [account_note]
  split
  · next own => exact own ▸ past
  · exact accounted.past t

theorem Accounted.aside_note (minds : m.world.Minds s v) {e : Ref .future × List Frame}
    (mem : e ∈ m.waiting) (other : some e.1 ≠ s) :
    Aside body v e.1 ((log.note s ks).account (some e.1)).scenes e.2 := by
  rw [account_note, if_neg other.symm]
  exact (accounted.aside e mem).mono minds other

theorem Accounted.ended_note (minds : m.world.Minds s v)
    (own : ∀ {t a x}, s = some t → (v.heap.get t).activity? = some a → (v.heap.get t).status = .done x →
      (log.note s ks).Ended t a x) {t : Ref .future} {a : Activity} {x : Value}
    (activity : (v.heap.get t).activity? = some a) (done : (v.heap.get t).status = .done x) :
    (start.heap.get t).status = .done x ∨ (log.note s ks).Ended t a x := by
  by_cases same : some t = s
  · exact .inr (own same.symm activity done)
  · have before := minds.values same (by simp [activity]) done
    have follows := minds.reckons.follows t (World.Valued.live ⟨x, before⟩)
    exact (accounted.ended (follows.activity.symm.trans activity) before).imp_right fun ended =>
      ended.note s ks

omit accounted in
theorem undone_of_active (active : v.Active t) {x : Value} : (v.heap.get t).status ≠ .done x := by
  simp [active.1]

theorem Accounted.proceed (focus : m.focus = some x) (later : n.focus = some y)
    (owner : y.owner = x.owner) (waiting : n.waiting = m.waiting) (minds : m.world.Minds none n.world)
    (runner : Runner m.world x.owner root)
    (past : ∀ s ∈ (ks.foldl Account.note (log.account x.owner)).past, s.Told body)
    (focused : Focused body root n.world (ks.foldl Account.note (log.account x.owner)).scenes y) :
    Accounted body start n (log.note x.owner ks) where
  past := accounted.past_note past
  focus z is := by
    obtain rfl := Option.some.inj (later.symm.trans is)
    rw [owner, account_own]
    exact ⟨root, runner.mono minds, focused⟩
  aside e mem :=
    accounted.aside_note (minds.but _) (waiting ▸ mem) (accounted.away x focus e (waiting ▸ mem)).symm
  apart := waiting ▸ accounted.apart
  away z is e mem := by
    obtain rfl := Option.some.inj (later.symm.trans is)
    rw [owner]
    exact accounted.away x focus e (waiting ▸ mem)
  idle t notOwner notWaiting := by
    have other : x.owner ≠ t := fun own => notOwner y later (owner.trans own)
    rw [account_note, if_neg other]
    refine accounted.idle t (fun z is => ?_) fun e mem => notWaiting e (waiting ▸ mem)
    obtain rfl := Option.some.inj (focus.symm.trans is)
    exact other
  ended activity done := by
    refine accounted.ended_note (minds.but _) (fun {t a x} own _ done => ?_) activity done
    rw [own] at runner
    cases runner.mono minds with
    | task active => exact absurd done (undone_of_active active)

theorem Accounted.leave (focus : m.focus = some x) (later : n.focus = none)
    (waiting : n.waiting = m.waiting) (minds : m.world.Minds x.owner n.world)
    (past : ∀ s ∈ (ks.foldl Account.note (log.account x.owner)).past, s.Told body)
    (emptied : (ks.foldl Account.note (log.account x.owner)).scenes = [])
    (ends : ∀ {t a y}, x.owner = some t → (n.world.heap.get t).activity? = some a →
      (n.world.heap.get t).status = .done y → (log.note x.owner ks).Ended t a y) :
    Accounted body start n (log.note x.owner ks) where
  past := accounted.past_note past
  focus z is := by simp [later] at is
  aside e mem :=
    accounted.aside_note minds (waiting ▸ mem) (accounted.away x focus e (waiting ▸ mem)).symm
  apart := waiting ▸ accounted.apart
  away z is := by simp [later] at is
  idle t _ notWaiting := by
    rw [account_note]
    split
    · next own => exact own ▸ emptied
    · next other =>
      refine accounted.idle t (fun z is => ?_) fun e mem => notWaiting e (waiting ▸ mem)
      obtain rfl := Option.some.inj (focus.symm.trans is)
      exact other
  ended := accounted.ended_note minds ends

theorem Accounted.setAside {frames : List Frame} (focus : m.focus = some x) (owner : x.owner = some t)
    (later : n.focus = none) (waiting : n.waiting = m.waiting ++ [(t, frames)])
    (minds : m.world.Minds (some t) n.world)
    (past : ∀ s ∈ (ks.foldl Account.note (log.account (some t))).past, s.Told body)
    (aside : Aside body n.world t (ks.foldl Account.note (log.account (some t))).scenes frames) :
    Accounted body start n (log.note (some t) ks) where
  past := accounted.past_note past
  focus z is := by simp [later] at is
  aside e mem := by
    rw [waiting] at mem
    rcases List.mem_append.mp mem with old | new
    · exact accounted.aside_note minds old (owner ▸ (accounted.away x focus e old).symm)
    · obtain rfl := List.mem_singleton.mp new
      rwa [account_own]
  apart := by
    rw [waiting, List.map_append]
    refine List.nodup_append.mpr ⟨accounted.apart, by simp, fun a old b new => ?_⟩
    obtain ⟨e, mem, rfl⟩ := List.mem_map.mp old
    obtain rfl := List.mem_singleton.mp new
    intro same
    exact accounted.away x focus e mem (by rw [owner, same])
  away z is := by simp [later] at is
  idle s _ notWaiting := by
    rw [waiting] at notWaiting
    have other : some t ≠ s := (notWaiting (t, frames) (by simp)).symm
    rw [account_note, if_neg other]
    refine accounted.idle s (fun z is => ?_) fun e mem => notWaiting e (List.mem_append_left _ mem)
    obtain rfl := Option.some.inj (focus.symm.trans is)
    exact owner ▸ other
  ended := accounted.ended_note minds fun own _ done => by
    cases own
    obtain ⟨_, own⟩ := aside.own
    cases (World.task?_eq_some.mp own).1.symm.trans done

theorem Accounted.rest (idle : m.focus = none) (later : n.focus = none) (waiting : n.waiting = m.waiting)
    (minds : m.world.Minds s n.world) (apart : ∀ e ∈ m.waiting, some e.1 ≠ s)
    (undone : ∀ t x, s = some t → (n.world.heap.get t).status ≠ .done x) :
    Accounted body start n log where
  past := accounted.past
  focus z is := by simp [later] at is
  aside e mem := (accounted.aside e (waiting ▸ mem)).mono minds (apart e (waiting ▸ mem))
  apart := waiting ▸ accounted.apart
  away z is := by simp [later] at is
  idle t _ notWaiting :=
    accounted.idle t (by simp [idle]) fun e mem => notWaiting e (waiting ▸ mem)
  ended activity done := by
    have note : log.note s [] = log := List.append_nil log
    exact note ▸ accounted.ended_note minds (fun own _ done => absurd done (undone _ _ own)) activity done

theorem Accounted.enter (ks : List Mark) (idle : m.focus = none) (later : n.focus = some y)
    (owner : y.owner = some t)
    (waiting : n.waiting = m.waiting.filter fun e => e.1 ≠ t) (minds : m.world.Minds (some t) n.world)
    (runner : Runner n.world (some t) root)
    (past : (ks.foldl Account.note (log.account (some t))).past = (log.account (some t)).past)
    (focused : Focused body root n.world (ks.foldl Account.note (log.account (some t))).scenes y) :
    Accounted body start n (log.note (some t) ks) where
  past := accounted.past_note (past ▸ accounted.past _)
  focus z is := by
    obtain rfl := Option.some.inj (later.symm.trans is)
    rw [owner, account_own]
    exact ⟨root, runner, focused⟩
  aside e mem := by
    rw [waiting, List.mem_filter] at mem
    exact accounted.aside_note minds mem.1 (by simpa using mem.2)
  apart := waiting ▸ accounted.apart.sublist (List.filter_sublist.map _)
  away z is e mem := by
    obtain rfl := Option.some.inj (later.symm.trans is)
    rw [waiting, List.mem_filter] at mem
    rw [owner]
    exact fun same => by simp [Option.some.inj same] at mem
  idle s notOwner notWaiting := by
    have other : some t ≠ s := fun own => notOwner y later (owner.trans own)
    rw [account_note, if_neg other]
    refine accounted.idle s (by simp [idle]) fun e mem same => ?_
    have elsewhere : e.1 ≠ t := fun is => other (is ▸ same.symm)
    exact notWaiting e (waiting ▸ List.mem_filter.mpr ⟨mem, by simpa using elsewhere⟩) same
  ended := accounted.ended_note minds fun own _ done => by
    cases own
    cases runner with
    | task active => exact absurd done (undone_of_active active)

end

/-! ## The routine in focus -/

theorem ok_of_endStatus {t : Ref .future} {o : Outcome} {x : Value} (done : w.endStatus t o = .done x) :
    o = .ok x := by
  unfold World.endStatus at done
  split at done
  · cases done
  · cases done
    rfl
  · split at done <;> cases done

section

variable {x : Focus} {t : Ref .future} {k : Outcome → Routine Value}
  (accounted : Accounted body start m log) (focus : m.focus = some x)
include accounted focus

theorem Accounted.continues {code : Routine Value} (minds : m.world.Minds none w)
    (leads : ∀ (c : Scene) a, c.Leads body a x.code m.world → c.Leads body a code w) :
    Accounted body start { m with focus := some { x with code := code }, world := w }
      (log.note x.owner []) := by
  obtain ⟨root, runner, runs⟩ := accounted.focus x focus
  refine accounted.proceed focus rfl rfl rfl minds runner (accounted.past _) ?_
  rw [List.foldl_nil]
  generalize (log.account x.owner).scenes = cs at runs
  cases runs with
  | host => exact .host
  | scene here below => exact .scene (leads _ _ here) below

theorem Accounted.called {a : Activity} (adds : ¬ Hosted (some a) → (body a).Adds)
    (code : x.code = .call a k) :
    Accounted body start
      { m with focus := some ⟨x.owner, some a, body a, ⟨x.activity, k⟩ :: x.frames⟩ }
      (log.note x.owner [.opens (.call a) m.world]) := by
  obtain ⟨root, runner, runs⟩ := accounted.focus x focus
  refine accounted.proceed focus rfl rfl rfl (.refl none _) runner (accounted.past _) ?_
  simp only [List.foldl_cons, List.foldl_nil, Account.note]
  generalize (log.account x.owner).scenes = cs at runs
  cases runs with
  | host => exact .scene (Scene.leads_begun adds m.world) .host
  | scene leads below =>
    obtain rfl : _ = Routine.call a k := code
    exact .scene (Scene.leads_begun adds m.world)
      (.frame (leads.asks (fun _ _ _ _ _ later => .call later) id) below)

theorem Accounted.returned {o : Outcome} (ends : x.code.Unfolds m.world [] o m.world)
    (emptied : x.frames = [] → n = m.finish x.owner o)
    (below : ∀ k frames, x.frames = k :: frames →
      n = { m with focus := some ⟨x.owner, k.activity, k.next o, frames⟩ }) :
    Accounted body start n (log.note x.owner [.closes o m.world]) := by
  obtain ⟨root, runner, runs⟩ := accounted.focus x focus
  have past := accounted.past x.owner
  have own := account_own log x.owner [.closes o m.world]
  rw [List.foldl_cons, List.foldl_nil] at own
  generalize is : log.account x.owner = acc at runs past own
  obtain ⟨cs, past_⟩ := acc
  obtain ⟨t, activity, code, frames⟩ := x
  dsimp only at runs past ends emptied below runner own is ⊢
  cases runs with
  | host =>
    obtain rfl := emptied rfl
    refine accounted.leave focus rfl rfl (.ofHeapEq rfl) ?_ ?_ nofun
    · rw [List.foldl_cons, List.foldl_nil, is]
      exact past
    · rw [List.foldl_cons, List.foldl_nil, is]
      rfl
  | @scene _ _ a c cs _ _ _ leads stacked =>
    have told : (c.story [] (some (o, m.world))).Told body := leads.ended ends
    have tells : (c.story [] (some (o, m.world))).Tells ⟨.call a, c.before, o, m.world⟩ :=
      ⟨leads.request, rfl, by rintro _ _ ⟨⟩; exact ⟨rfl, rfl⟩⟩
    have closed : (c.story [] (some (o, m.world))).Closed := nofun
    have more : ∀ s ∈ past_ ++ [c.story [] (some (o, m.world))], s.Told body :=
      List.forall_mem_append.mpr ⟨past, by simpa using told⟩
    -- The story goes to the scene below, or is over with its thread.
    cases stacked with
    | task =>
      obtain rfl := emptied rfl
      cases runner with
      | @task t _ active task =>
        have known : m.world.task? t ≠ none := active.task?
        refine accounted.leave focus rfl rfl (World.minds_ended o known) ?_ ?_ fun {s b y} same has done => ?_
        · rw [List.foldl_cons, List.foldl_nil, is]
          exact more
        · rw [List.foldl_cons, List.foldl_nil, is]
          rfl
        · cases same
          have done := (World.status_ended o known).symm.trans done
          obtain rfl := ok_of_endStatus done
          have follows := (World.minds_ended (.ok y) known).reckons.follows t (World.task?_live known)
          have activity := follows.activity.symm.trans has
          obtain rfl : a = b := Option.some.inj ((World.task?_eq_some.mp task).2.symm.trans activity)
          refine ⟨c.story [] (some (.ok y, m.world)), ?_, leads.request, _, rfl⟩
          rw [own]
          exact List.mem_append_right _ (List.mem_singleton_self _)
    | host =>
      obtain rfl := below _ _ rfl
      cases runner with
      | host =>
        refine accounted.proceed focus rfl rfl rfl (.refl none _) .host ?_ ?_
        · rw [List.foldl_cons, List.foldl_nil, is]
          exact more
        · rw [List.foldl_cons, List.foldl_nil, is]
          exact .host
    | frame waits stacked =>
      obtain rfl := below _ _ rfl
      refine accounted.proceed focus rfl rfl rfl (.refl none _) runner ?_ ?_
      · rw [List.foldl_cons, List.foldl_nil, is]
        exact past
      · rw [List.foldl_cons, List.foldl_nil, is]
        exact .scene (waits.answered told tells closed) stacked

section

variable {r : Request}
  (asks : ∀ ⦃o w l p v⦄, (k o).Unfolds w l p v → x.code.Unfolds m.world (⟨r, m.world, o, w⟩ :: l) p v)
  (adds : x.code.Adding m.world → ∀ o w, (k o).Adding w)
include asks adds

theorem Accounted.served {o : Outcome} (minds : m.world.Minds none w)
    (told : (Story.mk r m.world [] (some (o, w))).Told body) :
    Accounted body start { m with focus := some { x with code := k o }, world := w }
      (log.note x.owner [.opens r m.world, .closes o w]) := by
  obtain ⟨root, runner, runs⟩ := accounted.focus x focus
  have past := accounted.past x.owner
  have noted : [Mark.opens r m.world, .closes o w].foldl Account.note (log.account x.owner) =
      (log.account x.owner).add (.mk r m.world [] (some (o, w))) := rfl
  have tells : (Story.mk r m.world [] (some (o, w))).Tells ⟨r, m.world, o, w⟩ :=
    ⟨rfl, rfl, by rintro _ _ ⟨⟩; exact ⟨rfl, rfl⟩⟩
  generalize is : log.account x.owner = acc at runs past noted
  obtain ⟨cs, past_⟩ := acc
  obtain ⟨t, activity, code, frames⟩ := x
  dsimp only at runs past asks runner is
  cases runs with
  | host =>
    refine accounted.proceed focus rfl rfl rfl minds runner ?_ ?_
    · rw [is, noted]
      exact List.forall_mem_append.mpr ⟨past, by simpa using told⟩
    · rw [is, noted]
      exact .host
  | scene leads below =>
    refine accounted.proceed focus rfl rfl rfl minds runner ?_ ?_
    · rw [is, noted]
      exact past
    · rw [is, noted]
      exact .scene ((leads.asks asks adds).answered told tells nofun) below

theorem Accounted.waits (owner : x.owner = some t) (later : n.focus = none)
    (waiting : n.waiting = m.waiting ++ [(t, ⟨x.activity, k⟩ :: x.frames)])
    (minds : m.world.Minds (some t) n.world) (undone : (n.world.heap.get t).status = .waiting)
    (expects : Expects n.world t m.world r) :
    Accounted body start n (log.note x.owner [.opens r m.world]) := by
  obtain ⟨root, runner, runs⟩ := accounted.focus x focus
  obtain ⟨_, activity, code, frames⟩ := x
  dsimp only at owner runs asks waiting runner
  subst owner
  refine accounted.setAside focus rfl later waiting minds (accounted.past _) ?_
  simp only [List.foldl_cons, List.foldl_nil, Account.note]
  generalize (log.account (some t)).scenes = cs at runs
  cases runner with
  | task active task =>
    have own := (minds.reckons.follows t (World.task?_live active.task?)).activity.trans
      (World.task?_eq_some.mp task).2
    cases runs with
    | scene leads below =>
      exact .intro (World.task?_eq_some.mpr ⟨undone, own⟩) expects (.frame (leads.asks asks adds) below)

end

end

theorem grants_yields {f : Ref .future} {o : Outcome} (yields : w.Yields f o v) :
    w.Grants f (some (o, v)) := by
  rintro _ _ ⟨⟩
  refine ⟨(yields.minds (s := none)).reckons, ?_⟩
  rintro x rfl
  cases yields with
  | done status => exact status

theorem grants_error (reckons : w.Reckons v) (f : Ref .future) (e : Ref .failure) :
    w.Grants f (some (.error e, v)) := by
  rintro _ _ ⟨⟩
  exact ⟨reckons, nofun⟩

theorem Accounted.marked {x : Focus} (focus : m.focus = some x) (ks : List Mark)
    (is : m.deed (m.advance body x) x.code = ks)
    (noted : Accounted body start (m.advance body x) (log.note x.owner ks)) :
    Accounted body start (m.advance body x) (log ++ m.marks (m.advance body x)) := by
  have marks : m.marks (m.advance body x) = (m.deed (m.advance body x) x.code).map fun k => (x.owner, k) := by
    simp only [Machine.marks, focus]
  rw [marks, is]
  exact noted

theorem Accounted.pauses (accounted : Accounted body start m log) {x : Focus} (focus : m.focus = some x)
    {k : Outcome → Routine Value} (code : x.code = .pause k) :
    Accounted body start (m.advance body x) (log ++ m.marks (m.advance body x)) := by
  have asks ⦃o : Outcome⦄ ⦃w l p v⦄ (later : (k o).Unfolds w l p v) :
      x.code.Unfolds m.world (⟨.pause, m.world, o, w⟩ :: l) p v := code ▸ .pause later
  have adds (adding : x.code.Adding m.world) : ∀ o w, (k o).Adding w := by rwa [code] at adding
  cases owner : x.owner with
  | some t =>
    refine .marked focus [.opens .pause m.world] (by
      rw [code]
      simp only [Machine.advance, code, owner]
      rfl) ?_
    simp only [Machine.advance, code, owner]
    obtain ⟨root, runner, -⟩ := accounted.focus x focus
    rw [owner] at runner
    cases runner with
    | task active =>
      exact owner ▸ accounted.waits focus asks adds owner rfl rfl (.ofHeapEq rfl) active.1 .turn
  | none =>
    refine .marked focus [.opens .pause m.world, .closes (m.reply .pause) (m.world.alloc .failure _)] (by
      rw [code]
      simp only [Machine.advance, code, owner]
      rfl) ?_
    simp only [Machine.advance, code, owner, Machine.failure]
    exact owner ▸ accounted.served focus asks adds (World.minds_failure _ _) .pause

theorem Accounted.awaits (accounted : Accounted body start m log) {x : Focus} (focus : m.focus = some x)
    {f : Ref .future} {k : Outcome → Routine Value} (code : x.code = .await f k) :
    Accounted body start (m.advance body x) (log ++ m.marks (m.advance body x)) := by
  have failed (f : Fault) : m.world.Minds none (m.world.alloc .failure f) := World.minds_failure _ f
  have asks ⦃o : Outcome⦄ ⦃w l p v⦄ (later : (k o).Unfolds w l p v) :
      x.code.Unfolds m.world (⟨.await f, m.world, o, w⟩ :: l) p v := code ▸ .await later
  have adds (adding : x.code.Adding m.world) : ∀ o w, (k o).Adding w := by rwa [code] at adding
  rcases Protocol.outcome?_eq m f with ⟨o, v, yields, asked⟩ | ⟨waiting, asked⟩
  · refine .marked focus [.opens (.await f) m.world, .closes o v] (by
      rw [code]
      simp only [Machine.advance, code, asked, Machine.deed, Machine.asked, Machine.reply]
      rfl) ?_
    simp only [Machine.advance, code, asked]
    exact accounted.served focus asks adds yields.minds (.await (grants_yields yields))
  · -- the host cannot wait, and a task cannot wait for itself
    by_cases refused : x.owner = none ∨ x.owner = some f
    · have refuses : (decide (x.owner = none) || decide (x.owner = some f)) = true := by simpa using refused
      refine .marked focus [.opens (.await f) m.world, .closes (.error (m.world.heap.fresh .failure))
        (m.world.alloc .failure _)] (by
          rw [code]
          simp only [Machine.advance, code, asked, Machine.deed, Machine.asked, Machine.reply]
          rw [if_pos refuses]
          rfl) ?_
      simp only [Machine.advance, code, asked]
      rw [if_pos refuses]
      exact accounted.served focus asks adds (failed _) (.await (grants_error (failed _).reckons f _))
    · have accepts : ¬ (decide (x.owner = none) || decide (x.owner = some f)) = true := by simpa using refused
      obtain ⟨t, owner⟩ := Option.ne_none_iff_exists'.mp fun none => refused (.inl none)
      refine .marked focus [.opens (.await f) m.world] (by
        rw [code]
        simp only [Machine.advance, code, asked, Machine.deed, Machine.asked]
        rw [if_neg accepts]
        simp only [owner]
        rfl) ?_
      simp only [Machine.advance, code, asked]
      rw [if_neg accepts]
      simp only [owner]
      obtain ⟨root, runner, -⟩ := accounted.focus x focus
      rw [owner] at runner
      cases runner with
      | task active =>
        have other : t ≠ f := fun same => refused (.inr (same ▸ owner))
        have parked := World.parked_awaiting waiting active other
        exact owner ▸ accounted.waits focus asks adds owner rfl rfl parked.minds parked.status
          (.future parked.waits parked.reckons)

theorem Accounted.advance (accounted : Accounted body start m log)
    (adding : ∀ a, ¬ Hosted (some a) → (body a).Adds) (observed : minding.Observed m) {x : Focus}
    (focus : m.focus = some x) :
    Accounted body start (m.advance body x) (log ++ m.marks (m.advance body x)) := by
  have observes := observed x focus
  cases code : x.code with
  | done v =>
    refine .marked focus [.closes (.ok v) m.world] (by rw [code]; rfl) ?_
    exact accounted.returned focus (code ▸ .done v m.world)
      (fun frames => by simp only [Machine.advance, code, frames])
      fun k fs frames => by simp only [Machine.advance, code, frames]
  | fail e =>
    refine .marked focus [.closes (.error e) m.world] (by rw [code]; rfl) ?_
    exact accounted.returned focus (code ▸ .fail e m.world)
      (fun frames => by simp only [Machine.advance, code, frames])
      fun k fs frames => by simp only [Machine.advance, code, frames]
  | read k =>
    refine .marked focus [] (by rw [code]; rfl) ?_
    simp only [Machine.advance, code]
    exact accounted.continues focus (.refl none _) fun c a leads => Scene.Leads.read (code ▸ leads)
  | write v k =>
    refine .marked focus [] (by rw [code]; rfl) ?_
    simp only [Machine.advance, code]
    have minds : m.world.Minds none v := by
      rw [code] at observes
      obtain ⟨root, -, runs⟩ := accounted.focus x focus
      generalize (log.account x.owner).scenes = cs at runs
      -- it is the host that writes, or code of the library
      cases runs with
      | host => exact observes trivial
      | @scene _ _ a _ _ _ _ _ leads =>
        by_cases hosted : Hosted (some a)
        · exact observes hosted
        · obtain rfl : _ = Routine.write v k := code
          exact (leads.adds hosted).1.minds
    exact accounted.continues focus minds fun c a leads => Scene.Leads.write (code ▸ leads)
  | call a k =>
    refine .marked focus [.opens (.call a) m.world] (by rw [code]; rfl) ?_
    simp only [Machine.advance, code]
    exact accounted.called focus (adding a) code
  | pause k => exact accounted.pauses focus code
  | await f k => exact accounted.awaits focus code

/-! ## The next job -/

inductive Turned (body : Meaning) (m : Machine) (j : Job) (n : Machine) : Prop
  | rests {s} (focus : n.focus = none) (same : n.waiting = m.waiting) (minds : m.world.Minds s n.world)
      (apart : ∀ e ∈ m.waiting, some e.1 ≠ s)
      (undone : ∀ t x, s = some t → (n.world.heap.get t).status ≠ .done x)
  | starts {t a} (new : ∀ e ∈ m.waiting, e.1 ≠ t) (focus : n.focus = some ⟨some t, some a, body a, []⟩)
      (same : n.waiting = m.waiting) (minds : m.world.Minds (some t) n.world)
      (active : n.world.Active t) (own : n.world.task? t = some a)
  | resumes {t k frames} (found : (t, k :: frames) ∈ m.waiting)
      (focus : n.focus = some ⟨some t, k.activity, k.next (m.word j), frames⟩)
      (others : n.waiting = m.waiting.filter fun e => e.1 ≠ t) (minds : m.world.Minds (some t) n.world)
      (active : n.world.Active t)
      (given : ∀ {f x}, (m.world.heap.get t).waitsFor? = some f → m.word j = .ok x →
        (n.world.heap.get f).status = .done x)

theorem turned_rests {j : Job} (idle : m.focus = none) (minds : m.world.Minds none w) :
    Turned body m j { m with world := w } := .rests idle rfl minds (by simp) nofun

/-- A task that a job is about goes on, or starts, or is not to begin any more. -/
theorem turned_wake {j : Job} {t : Ref .future} {o : Outcome} (idle : m.focus = none)
    (full : ∀ e ∈ m.waiting, e.2 ≠ []) (minds : m.world.Minds none v)
    (word : m.word j = ({ m with world := v } : Machine).told t o)
    (given : ∀ {f x}, (m.world.heap.get t).waitsFor? = some f → o = .ok x → (v.heap.get f).status = .done x) :
    Turned body m j (Machine.wake body { m with world := v } t o) := by
  unfold Machine.wake
  dsimp only
  split
  · next a f cancelling waiting origin =>
    have task : v.task? t = some a :=
      World.task?_eq_some.mpr ⟨waiting, World.activity?_eq_some.mpr ⟨f, cancelling, origin⟩⟩
    have going : m.world.Minds (some t) (v.resumed t v.ready) :=
      (minds.but _).trans (World.minds_resumed v t _)
    have active := (World.runs_resumed v.ready (w := v) (t := t) (by simp [task])).active
    -- whoever has been set aside goes on, others start
    by_cases begun : (m.waiting.any fun e => decide (e.1 = t)) = true
    · obtain ⟨frames, found⟩ : ∃ frames, m.waiting.lookup t = some frames := by
        by_contra none
        have apart := Protocol.lookup_none (Option.eq_none_iff_forall_ne_some.mpr fun frames is =>
          none ⟨frames, is⟩)
        obtain ⟨e, mem, same⟩ := List.any_eq_true.mp begun
        exact apart e mem (of_decide_eq_true same)
      have mem := Protocol.lookup_mem found
      cases frames with
      | nil => exact absurd rfl (full _ mem)
      | cons k frames =>
        cases cancelling with
        | false =>
          have is : m.word j = o := by rw [word]; simp only [Machine.told, origin]
          simp only [Bool.not_false, if_true, Machine.edit, begun, Machine.resume, found]
          exact .resumes mem (by rw [is]) rfl going active fun waits ok =>
            (World.status_resumed v t _ v.ready).trans (given waits (is.symm.trans ok))
        | true =>
          have is : m.word j = .error (v.heap.fresh .failure) := by
            rw [word]
            simp only [Machine.told, origin]
          simp only [Bool.not_true, Bool.false_eq_true, if_false, if_true, Machine.edit, begun,
            Machine.failure, Machine.resume, found]
          exact .resumes mem (by rw [is]; rfl) rfl (going.trans (World.minds_failure _ .cancelled))
            ((World.minds_failure _ .cancelled (s := none)).active (by simp) active)
            fun _ ok => by rw [is] at ok; cases ok
    · have new : ∀ e ∈ m.waiting, e.1 ≠ t := fun e mem same =>
        begun (List.any_eq_true.mpr ⟨e, mem, by simpa using same⟩)
      cases cancelling with
      | false =>
        simp only [Bool.not_false, if_true, Machine.edit, begun, Machine.start]
        exact .starts new rfl rfl going active
          ((World.turns_resumed v t v.ready).evolves.task?_some task active.1)
      | true =>
        simp only [Bool.not_true, Bool.false_eq_true, if_false, Machine.edit, begun]
        have dropped := World.minds_completed (v.set t (v.heap.get t).goOn) t
        refine .rests idle rfl ((minds.but _).trans ((World.minds_goOn v t).trans dropped))
          (fun e mem same => new e mem (Option.some.inj same)) fun s x same done => ?_
        obtain rfl : t = s := Option.some.inj same
        -- it has not begun, or was cancelled
        rcases World.status_completed (v.set t (v.heap.get t).goOn) t t .cancelled with kept | ended
        · have before := (World.status_resumed v t t v.ready).trans waiting
          cases (kept.trans before).symm.trans done
        · cases ended.symm.trans done
  · exact turned_rests idle minds

theorem turned_carryOut (idle : m.focus = none) (full : ∀ e ∈ m.waiting, e.2 ≠ []) (j : Job) :
    Turned body m j (Machine.carryOut body m j) := by
  unfold Machine.carryOut
  cases j with
  | step t =>
    dsimp only
    split
    · next free =>
      exact turned_wake (v := m.world) idle full (.refl none _) rfl fun waits => by simp [free] at waits
    · exact turned_rests idle (.refl none _)
  | react r f =>
    cases r with
    | tell g => exact turned_rests idle (World.minds_report g f _)
    | wake t =>
      dsimp only
      split
      · next waits =>
        rcases Protocol.outcome?_eq m f with ⟨o, v, yields, asked⟩ | ⟨-, asked⟩
        · rw [asked]
          refine turned_wake idle full yields.minds ?_ fun {g x} expects ok => ?_
          · simp only [Machine.word, Machine.reply, asked, Option.getD_some]
          · obtain rfl : f = g := Option.some.inj (waits.symm.trans expects)
            exact (grants_yields yields o v rfl).2 x ok
        · rw [asked]
          exact turned_rests idle (.refl none _)
      · exact turned_rests idle (.refl none _)

theorem Accounted.full (accounted : Accounted body start m log) : ∀ e ∈ m.waiting, e.2 ≠ [] :=
  fun e mem none => by
    obtain ⟨t, frames⟩ := e
    obtain rfl : frames = [] := none
    have aside := accounted.aside _ mem
    generalize (log.account (some t)).scenes = cs at aside
    cases aside

theorem Accounted.turned (accounted : Accounted body start m log)
    (adding : ∀ a, ¬ Hosted (some a) → (body a).Adds) (idle : m.focus = none) {j : Job}
    (turned : Turned body m j n) : Accounted body start n (log ++ m.taken n j) := by
  cases turned with
  | rests focus waiting minds apart undone =>
    have silent : m.taken n j = [] := by
      simp only [Machine.taken, focus]
    rw [silent, List.append_nil]
    exact accounted.rest idle focus waiting minds apart undone
  | @starts t a new focus waiting minds active own =>
    have unbegun : (m.waiting.any fun e => decide (some e.1 = some t)) = false := by simpa using new
    have marked : m.taken n j =
        [(some t, .opens (.call a) n.world)] := by
      simp only [Machine.taken, focus, unbegun]
      rfl
    have nothing : (log.account (some t)).scenes = [] :=
      accounted.idle (some t) (by simp [idle]) fun e mem same => new e mem (Option.some.inj same).symm
    rw [marked]
    refine accounted.enter [.opens (.call a) n.world] idle focus rfl ?_ minds (.task active own) rfl ?_
    · rw [waiting, List.filter_eq_self.mpr fun e mem => by simpa using new e mem]
    · simp only [List.foldl_cons, List.foldl_nil, Account.note, nothing]
      exact .scene (Scene.leads_begun (adding a) n.world) .task
  | @resumes t k frames found focus waiting minds active given =>
    have begun : (m.waiting.any fun e => decide (some e.1 = some t)) = true :=
      List.any_eq_true.mpr ⟨_, found, by simp⟩
    have marked : m.taken n j =
        [(some t, .closes (m.word j) n.world)] := by
      simp only [Machine.taken, focus, begun, if_true]
    rw [marked]
    have aside := accounted.aside _ found
    dsimp only at aside
    generalize is : log.account (some t) = acc at aside
    obtain ⟨cs, past⟩ := acc
    cases aside with
    | @intro a r u cs _ _ own expects stacked =>
      have told : (Story.mk r u [] (some (m.word j, n.world))).Told body := by
        cases expects with
        | turn => exact .pause
        | future waits reckons =>
          refine .await ?_
          rintro _ _ ⟨⟩
          exact ⟨reckons.trans minds.reckons, fun x => given waits⟩
      have task : n.world.task? t = some a := World.task?_eq_some.mpr
        ⟨active.1, (minds.reckons.follows t (World.task?_live (by simp [own]))).activity.trans
          (World.task?_eq_some.mp own).2⟩
      cases stacked with
      | frame waits below =>
        refine accounted.enter [.closes (m.word j) n.world] idle focus rfl waiting minds
          (.task active task) ?_ ?_
        · rw [is]
          rfl
        · rw [is]
          exact .scene (waits.answered told ⟨rfl, rfl, by rintro _ _ ⟨⟩; exact ⟨rfl, rfl⟩⟩ nofun) below

theorem Accounted.step (accounted : Accounted body start m log)
    (adding : ∀ a, ¬ Hosted (some a) → (body a).Adds) (observed : minding.Observed m)
    (next : m.step body = some n) : Accounted body start n (log ++ m.marks n) := by
  unfold Machine.step at next
  split at next
  · next x focus =>
    obtain rfl := Option.some.inj next
    exact accounted.advance adding observed focus
  · next idle =>
    split at next
    · cases next
    · next j jobs ready =>
      let p : Machine := { m with world := { m.world with ready := jobs } }
      obtain rfl : Machine.carryOut body p j = n := Option.some.inj next
      have popped : Accounted body start p log :=
        accounted.rest (s := none) idle idle rfl (.ofHeapEq rfl) (by simp) nofun
      have marks : m.marks (Machine.carryOut body p j) = p.taken (Machine.carryOut body p j) j := by
        simp only [Machine.marks, idle, ready, p]
      exact marks ▸ popped.turned adding idle (turned_carryOut (m := p) idle popped.full j)

theorem Accounted.visit (accounted : Accounted body start m log) (idle : m.focus = none)
    (r : Routine Value) : Accounted body start (m.visit r) log where
  past := accounted.past
  focus x is := by
    obtain rfl := Option.some.inj is
    rw [accounted.idle none (by simp [idle]) (by simp)]
    exact ⟨none, .host, .host⟩
  aside := accounted.aside
  apart := accounted.apart
  away x is e _ := by
    obtain rfl := Option.some.inj is
    simp
  idle t _ notWaiting := accounted.idle t (by simp [idle]) notWaiting
  ended := accounted.ended

end

end AsyncImport
