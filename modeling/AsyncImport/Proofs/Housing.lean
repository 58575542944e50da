import AsyncImport.Proofs.Declarations

/-!
# Registries in order

What holds of registries and plugins whenever nothing is being added to them, and edits that are done as
a whole, with the registries in order after them, or not at all.
-/

namespace AsyncImport

open Edit

namespace Heap

variable {h g : Heap}

/-- Every registry serves all hooks; a plugin that belongs to a registry is there for good, and is
found under its name by that registry only. -/
structure Housed (h : Heap) : Prop where
  hooks : ∀ r : Ref .registry, h.Live r → ∀ k, ∃ f, (h.get r).fanout? k = some f
  home : ∀ p : Ref .plugin, h.Live p →
    (h.get p).registry = .none ∨ ∃ r, (h.get p).registry = .obj .registry r ∧ h.Live r
  named : ∀ r : Ref .registry, h.Live r → ∀ s p, (h.get r).named.get? s = some p →
    h.Live p ∧ (h.get p).registry = .obj .registry r
  hashable : h.Hashable

namespace Housed

theorem congr (housed : h.Housed) (registries : g.table .registry = h.table .registry)
    (live : ∀ p : Ref .plugin, g.Live p ↔ h.Live p)
    (home : ∀ p : Ref .plugin, (g.get p).registry = (h.get p).registry) (hashable : g.Hashable) :
    g.Housed := by
  have get (r : Ref .registry) : g.get r = h.get r := by rw [Heap.get, Heap.get, registries]
  have known (r : Ref .registry) : g.Live r ↔ h.Live r := by rw [Live, Live, registries]
  refine ⟨fun r alive => ?_, fun p alive => ?_, fun r alive s p found => ?_, hashable⟩
  · rw [get]
    exact housed.hooks r ((known r).mp alive)
  · simp only [home, known]
    exact housed.home p ((live p).mp alive)
  · rw [get] at found
    rw [live, home]
    exact housed.named r ((known r).mp alive) s p found

theorem same (housed : h.Housed) (registries : g.table .registry = h.table .registry)
    (plugins : g.table .plugin = h.table .plugin) (hashable : g.Hashable) : g.Housed :=
  housed.congr registries (fun p => by rw [Live, Live, plugins])
    (fun p => by rw [Heap.get, Heap.get, plugins]) hashable

theorem alloc_plugin {c : Plugin} (housed : h.Housed)
    (home : c.registry = .none ∨ ∃ r, c.registry = .obj .registry r ∧ h.Live r) :
    (h.alloc .plugin c).Housed where
  hooks := housed.hooks
  home p live := by
    rcases live_alloc.mp live with old | rfl
    · rw [get_alloc_live _ _ old]
      exact housed.home p old
    · rw [get_alloc_fresh]
      exact home
  named r live s p found := by
    obtain ⟨old, known⟩ := housed.named r live s p found
    rw [get_alloc_live _ _ old]
    exact ⟨live_alloc.mpr (.inl old), known⟩
  hashable := housed.hashable.congr ⟨rfl, rfl, rfl⟩

theorem alloc_registry {c : Registry} (housed : h.Housed) (serves : ∀ k, ∃ f, c.fanout? k = some f)
    (nobody : c.named = {}) : (h.alloc .registry c).Housed where
  hooks r live k := by
    rcases live_alloc.mp live with old | rfl
    · rw [get_alloc_live _ _ old]
      exact housed.hooks r old k
    · rw [get_alloc_fresh]
      exact serves k
  home p live := by
    rcases housed.home p live with alone | ⟨r, known, old⟩
    · exact .inl alone
    · exact .inr ⟨r, known, live_alloc.mpr (.inl old)⟩
  named r live s p found := by
    rcases live_alloc.mp live with old | rfl
    · rw [get_alloc_live _ _ old] at found
      exact housed.named r old s p found
    · rw [get_alloc_fresh, nobody] at found
      cases found
  hashable := housed.hashable.congr ⟨rfl, rfl, rfl⟩

theorem set_registry {c : Registry} {r : Ref .registry} (housed : h.Housed) (live : h.Live r)
    (fanouts : c.fanouts = (h.get r).fanouts)
    (named : ∀ s p, c.named.get? s = some p → h.Live p ∧ (h.get p).registry = .obj .registry r) :
    (h.set r c).Housed where
  hooks q alive k := by
    by_cases e : q = r
    · subst e
      rw [get_set_self _ _ live]
      simpa only [Registry.fanout?, fanouts] using housed.hooks q live k
    · rw [get_set_ne _ _ e]
      exact housed.hooks q (live_set.mp alive) k
  home p alive := by
    rcases housed.home p alive with alone | ⟨q, known, alive⟩
    · exact .inl alone
    · exact .inr ⟨q, known, live_set.mpr alive⟩
  named q alive s p found := by
    by_cases e : q = r
    · subst e
      rw [get_set_self _ _ live] at found
      exact named s p found
    · rw [get_set_ne _ _ e] at found
      exact housed.named q (live_set.mp alive) s p found
  hashable := housed.hashable.congr ⟨rfl, rfl, rfl⟩

end Housed
end Heap

structure Heap.Beside (h g : Heap) : Prop where
  data : h.SameData g
  registries : ∀ r : Ref .registry, h.Live r → g.Live r
  plugins : ∀ p : Ref .plugin, h.Live p → g.Live p

theorem Heap.Beside.refl (h : Heap) : h.Beside h := ⟨.refl h, fun _ l => l, fun _ l => l⟩

theorem Heap.Beside.trans {f g h : Heap} (first : f.Beside g) (next : g.Beside h) : f.Beside h :=
  ⟨first.data.trans next.data, fun r l => next.registries r (first.registries r l),
    fun p l => next.plugins p (first.plugins p l)⟩

namespace Edit

variable {α β : Type} {w : World}

def Succeeds (e : Edit α) (w : World) (Q : α → World → Prop) : Prop :=
  ∃ a v, e w = (.ok a, v) ∧ w.heap.Beside v.heap ∧ v.heap.Housed ∧ Q a v

def Whole (e : Edit α) (w : World) (Q : α → World → Prop) : Prop :=
  (∃ f, e w = (.error f, w)) ∨ Succeeds e w Q

variable {e : Edit α} {f : α → Edit β} {find : Heap → Option α} {R : α → World → Prop}
  {Q : β → World → Prop}

theorem succeeds_pure {a : α} (housed : w.heap.Housed) (holds : R a w) : Succeeds (pure a) w R :=
  ⟨a, w, rfl, .refl _, housed, holds⟩

theorem succeeds_bind (first : Succeeds e w R)
    (next : ∀ a v, w.heap.Beside v.heap → v.heap.Housed → R a v → Succeeds (f a) v Q) :
    Succeeds (e >>= f) w Q := by
  obtain ⟨a, v, run, beside, housed, holds⟩ := first
  obtain ⟨b, u, run', beside', housed', holds'⟩ := next a v beside housed holds
  refine ⟨b, u, ?_, beside.trans beside', housed', holds'⟩
  rw [run_bind, run]
  exact run'

theorem succeeds_found {a : α} (reads : e.Reads find) (found : find w.heap = some a)
    (next : Succeeds (f a) w Q) : Succeeds (e >>= f) w Q := by
  obtain ⟨b, v, run, rest⟩ := next
  refine ⟨b, v, ?_, rest⟩
  rw [run_bind, reads.found found]
  exact run

theorem succeeds_forM {γ : Type} {f : γ → Edit PUnit} {cs : List γ} (housed : w.heap.Housed)
    (each : ∀ c ∈ cs, ∀ v, w.heap.Beside v.heap → v.heap.Housed → Succeeds (f c) v fun _ _ => True) :
    Succeeds (cs.forM f) w fun _ _ => True := by
  induction cs generalizing w with
  | nil => exact succeeds_pure housed trivial
  | cons c cs ih =>
    refine succeeds_bind (each c List.mem_cons_self w (.refl _) housed) fun _ v beside housed _ => ?_
    exact ih housed fun d mem u later => each d (List.mem_cons_of_mem _ mem) u (beside.trans later)

theorem succeeds_mapM {γ : Type} {f : γ → Edit α} {cs : List γ} (housed : w.heap.Housed)
    (each : ∀ c ∈ cs, ∀ v, w.heap.Beside v.heap → v.heap.Housed → Succeeds (f c) v fun _ _ => True) :
    Succeeds (cs.mapM f) w fun _ _ => True := by
  induction cs generalizing w with
  | nil => exact succeeds_pure housed trivial
  | cons c cs ih =>
    rw [List.mapM_cons]
    refine succeeds_bind (each c List.mem_cons_self w (.refl _) housed) fun a v beside housed _ => ?_
    refine succeeds_bind (ih housed fun d mem u later =>
      each d (List.mem_cons_of_mem _ mem) u (beside.trans later)) fun as u _ housed _ => ?_
    exact succeeds_pure housed trivial

theorem whole_bind (first : Whole e w R)
    (next : ∀ a v, w.heap.Beside v.heap → v.heap.Housed → R a v → Succeeds (f a) v Q) :
    Whole (e >>= f) w Q := by
  rcases first with ⟨g, run⟩ | done
  · exact .inl ⟨g, by rw [run_bind, run]⟩
  · exact .inr (succeeds_bind done next)

theorem whole_reads (reads : e.Reads find)
    (next : ∀ a, find w.heap = some a → Whole (f a) w Q) : Whole (e >>= f) w Q := by
  cases found : find w.heap with
  | none =>
    obtain ⟨g, run⟩ := reads.missing found
    exact .inl ⟨g, by rw [run_bind, run]⟩
  | some a =>
    rcases next a found with ⟨g, run⟩ | done
    · exact .inl ⟨g, by simp only [run_bind, reads.found found, run]⟩
    · exact .inr (succeeds_found reads found done)

theorem Succeeds.whole (done : Succeeds e w R) : Whole e w R := .inr done

theorem Whole.succeeds {a : α} {v : World} (whole : Whole e w R) (run : e w = (.ok a, v)) :
    Succeeds e w R := by
  rcases whole with ⟨g, failed⟩ | done
  · rw [run] at failed
    cases failed
  · exact done

theorem Succeeds.mono {S : α → World → Prop} (done : Succeeds e w R) (weaker : ∀ a v, R a v → S a v) :
    Succeeds e w S := by
  obtain ⟨a, v, run, beside, housed, holds⟩ := done
  exact ⟨a, v, run, beside, housed, weaker a v holds⟩

end Edit
end AsyncImport
