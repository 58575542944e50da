import AsyncImport.Proofs.Listings

/-!
# What a plugin gains

A plugin that is given handlers and patterns merges the handlers, replaces the patterns, and joins the
fan-outs of the hooks for which it has its first handler. Nothing else changes. `Gains` says so once, for a
single handler list as for a whole definition.
-/

namespace AsyncImport

open Edit

namespace Plugin

def Sound (p : Plugin) : Prop := ∀ k, p.handlers.contains k = true → p.handlersFor k ≠ []

def matcherFor (p : Plugin) (κ : Key) : Option Matcher := (p.rules.get? κ).map Rule.matcher

def patternsFor (p : Plugin) (κ : Key) : Option (List String) :=
  (p.matcherFor κ).map Matcher.patterns

theorem contains_of_handlersFor {p : Plugin} {k : Hook} (given : p.handlersFor k ≠ []) :
    p.handlers.contains k = true := by
  unfold handlersFor at given
  unfold Assoc.contains
  cases known : p.handlers.get? k <;> simp_all

theorem handlersFor_addHandlers (p : Plugin) (k l : Hook) (ts : List Handler) :
    (p.addHandlers k ts).handlersFor l =
      if l = k then Handler.merge (p.handlersFor k) ts else p.handlersFor l := by
  unfold addHandlers
  dsimp only
  split
  · next same =>
    split
    · next e => rw [e, Handler.merge_of_length (Nat.le_of_eq same)]
    · rfl
  · simp only [handlersFor, Assoc.get?_insert]
    split <;> rfl

theorem sound_addHandlers {p : Plugin} (sound : p.Sound) (k : Hook) (ts : List Handler) :
    (p.addHandlers k ts).Sound := by
  intro l there
  rw [handlersFor_addHandlers]
  unfold addHandlers at there
  dsimp only at there
  split at there
  · next same =>
    split
    · next e =>
      rw [Handler.merge_of_length (Nat.le_of_eq same)]
      exact e ▸ sound l there
    · exact sound l there
  · next more =>
    split
    · next e =>
      intro nothing
      obtain ⟨before, rfl⟩ := Handler.merge_eq_nil.mp nothing
      exact more (by rw [nothing, before])
    · next ne =>
      rw [Assoc.contains_insert, decide_eq_false ne, Bool.false_or] at there
      exact sound l there

@[simp] theorem matcherFor_addHandlers (p : Plugin) (k : Hook) (ts : List Handler) :
    (p.addHandlers k ts).matcherFor = p.matcherFor := by
  funext κ
  unfold addHandlers
  dsimp only
  split <;> rfl

@[simp] theorem name_addHandlers (p : Plugin) (k : Hook) (ts : List Handler) :
    (p.addHandlers k ts).name = p.name := by
  unfold addHandlers
  dsimp only
  split <;> rfl

theorem matcherFor_setRule (p : Plugin) (key κ : Key) (rule : Rule) :
    (p.setRule key rule).matcherFor κ =
      if κ = key then some rule.matcher else p.matcherFor κ := by
  unfold setRule matcherFor
  simp only [Assoc.get?_insert]
  split <;> rfl

end Plugin

namespace Heap

variable {h g f : Heap} {p : Ref .plugin}

structure Fitted (h : Heap) : Prop extends h.Housed where
  sound : ∀ p : Ref .plugin, h.Live p → (h.get p).Sound
  served : ∀ r : Ref .registry, h.Live r → ∀ k f, (h.get r).fanout? k = some f → h.Live f
  apart : ∀ r s : Ref .registry, h.Live r → h.Live s → ∀ k l f, (h.get r).fanout? k = some f →
    (h.get s).fanout? l = some f → r = s ∧ k = l

def matcherOf (h : Heap) (p : Ref .plugin) (ps : List String) : Matcher :=
  .of ((Plugin.comparison? h p).getD .none) ps

/-- Nothing changes but one plugin, which gets handlers for hooks and lists of patterns for rules, and
the fan-outs of its registry that it joins with its first handler for a hook. -/
structure Gains (p : Ref .plugin) (handlers : Hook → List Handler)
    (patterns : Key → List (List String)) (h g : Heap) : Prop where
  registries : g.table .registry = h.table .registry
  plugins : ∀ q : Ref .plugin, g.Live q ↔ h.Live q
  fanouts : ∀ f : Ref .fanout, g.Live f ↔ h.Live f
  others : ∀ q : Ref .plugin, q ≠ p → g.get q = h.get q
  name : (g.get p).name = (h.get p).name
  home : (g.get p).registry = (h.get p).registry
  sound : (h.get p).Sound → (g.get p).Sound
  handlers : ∀ k, (g.get p).handlersFor k = Handler.merge ((h.get p).handlersFor k) (handlers k)
  matchers : ∀ κ, (g.get p).matcherFor κ =
    ((patterns κ).getLast?.map (h.matcherOf p)).or ((h.get p).matcherFor κ)
  joined : ∀ r k f, (h.get p).registry = .obj .registry r → (h.get r).fanout? k = some f →
    g.get f = if (h.get p).handlersFor k = [] ∧ (g.get p).handlersFor k ≠ []
      then (h.get f).use (.obj .plugin p) else h.get f
  passed : ∀ f : Ref .fanout, (∀ r k, (h.get p).registry = .obj .registry r →
    (h.get r).fanout? k ≠ some f) → g.get f = h.get f

namespace Gains

variable {handlers later : Hook → List Handler} {patterns after : Key → List (List String)}

theorem refl (p : Ref .plugin) (h : Heap) : Gains p (fun _ => []) (fun _ => []) h h where
  registries := rfl
  plugins _ := .rfl
  fanouts _ := .rfl
  others _ _ := rfl
  name := rfl
  home := rfl
  sound := id
  handlers _ := rfl
  matchers _ := rfl
  joined _ _ _ _ _ := by simp
  passed _ _ := rfl

theorem get_registry (gains : Gains p handlers patterns h g) (r : Ref .registry) :
    g.get r = h.get r := by rw [get, get, gains.registries]

theorem live_registry (gains : Gains p handlers patterns h g) (r : Ref .registry) :
    g.Live r ↔ h.Live r := by rw [Live, Live, gains.registries]

theorem registry_eq (gains : Gains p handlers patterns h g) (q : Ref .plugin) :
    (g.get q).registry = (h.get q).registry := by
  by_cases same : q = p
  · rw [same, gains.home]
  · rw [gains.others q same]

theorem name_eq (gains : Gains p handlers patterns h g) (q : Ref .plugin) :
    (g.get q).name = (h.get q).name := by
  by_cases same : q = p
  · rw [same, gains.name]
  · rw [gains.others q same]

theorem comparison_eq (gains : Gains p handlers patterns h g) (q : Ref .plugin) :
    Plugin.comparison? g q = Plugin.comparison? h q := by
  simp only [Plugin.comparison?, gains.registry_eq, gains.get_registry]

theorem patternsFor (gains : Gains p handlers patterns h g) (κ : Key) :
    (g.get p).patternsFor κ =
      ((patterns κ).getLast?.map List.eraseDups).or ((h.get p).patternsFor κ) := by
  unfold Plugin.patternsFor
  rw [gains.matchers]
  cases (patterns κ).getLast? <;> simp [matcherOf, Matcher.patterns_of]

theorem trans (first : Gains p handlers patterns h g) (next : Gains p later after g f) :
    Gains p (fun k => handlers k ++ later k) (fun κ => patterns κ ++ after κ) h f where
  registries := next.registries.trans first.registries
  plugins q := (next.plugins q).trans (first.plugins q)
  fanouts q := (next.fanouts q).trans (first.fanouts q)
  others q ne := (next.others q ne).trans (first.others q ne)
  name := next.name.trans first.name
  home := next.home.trans first.home
  sound known := next.sound (first.sound known)
  handlers k := by rw [next.handlers, first.handlers, Handler.merge_append]
  matchers κ := by
    have same : g.matcherOf p = h.matcherOf p := by
      funext ps
      rw [matcherOf, matcherOf, first.comparison_eq]
    rw [next.matchers, first.matchers, List.getLast?_append, same]
    cases (after κ).getLast? <;> rfl
  joined r k f home serves := by
    rw [next.joined r k f (first.home.trans home) (by rw [first.get_registry, serves]),
      first.joined r k f home serves, next.handlers k, first.handlers k]
    by_cases before : (h.get p).handlersFor k = [] <;>
      by_cases given : Handler.merge ((h.get p).handlersFor k) (handlers k) = [] <;>
        simp_all [Handler.merge_eq_nil]
  passed f outside := by
    rw [next.passed f fun r k home => ?_, first.passed f outside]
    rw [first.get_registry]
    exact outside r k (first.home.symm.trans home)

theorem fitted (gains : Gains p handlers patterns h g) (fitted : h.Fitted) (housed : g.Housed) :
    g.Fitted where
  toHoused := housed
  sound q live := by
    by_cases same : q = p
    · subst same
      exact gains.sound (fitted.sound q ((gains.plugins q).mp live))
    · rw [gains.others q same]
      exact fitted.sound q ((gains.plugins q).mp live)
  served r live k f serves := by
    rw [gains.get_registry] at serves
    exact (gains.fanouts f).mpr (fitted.served r ((gains.live_registry r).mp live) k f serves)
  apart r s live alive k l f serves known := by
    rw [gains.get_registry] at serves known
    exact fitted.apart r s ((gains.live_registry r).mp live) ((gains.live_registry s).mp alive) k l f
      serves known

section

variable {k : Hook} {ts : List Handler}

theorem set_added (live : h.Live p) (fitted : h.Fitted)
    (known : (h.get p).registry = .none ∨ (h.get p).handlers.contains k = true) :
    Gains p (fun l => if l = k then ts else []) (fun _ => []) h
      (h.set p ((h.get p).addHandlers k ts)) where
  registries := table_setTable_ne _ _ (by decide)
  plugins q := live_set
  fanouts q := live_set
  others q ne := get_set_ne _ _ ne
  name := by rw [get_set_self _ _ live, Plugin.name_addHandlers]
  home := by rw [get_set_self _ _ live, Plugin.registry_addHandlers]
  sound sound := by
    rw [get_set_self _ _ live]
    exact Plugin.sound_addHandlers sound k ts
  handlers l := by
    rw [get_set_self _ _ live, Plugin.handlersFor_addHandlers]
    split
    · next e => rw [e]
    · rfl
  matchers κ := by
    rw [get_set_self _ _ live, Plugin.matcherFor_addHandlers]
    rfl
  joined r l f home serves := by
    rw [get_set_kind _ _ (by decide), get_set_self _ _ live, Plugin.handlersFor_addHandlers]
    rcases known with alone | there
    · rw [alone] at home
      cases home
    · have given := fitted.sound p live k there
      split <;> simp_all
  passed f _ := get_set_kind _ _ (by decide)

theorem set_joined {r : Ref .registry} {f : Ref .fanout} (live : h.Live p) (fitted : h.Fitted)
    (home : (h.get p).registry = .obj .registry r) (alive : h.Live r)
    (serves : (h.get r).fanout? k = some f) (first : (h.get p).handlersFor k = [])
    (added : ts ≠ []) :
    Gains p (fun l => if l = k then ts else []) (fun _ => []) h
      ((h.set p ((h.get p).addHandlers k ts)).set f ((h.get f).use (.obj .plugin p))) := by
  have live_f : (h.set p ((h.get p).addHandlers k ts)).Live f :=
    live_set.mpr (fitted.served r alive k f serves)
  have get_plugin (q : Ref .plugin) : ((h.set p ((h.get p).addHandlers k ts)).set f
      ((h.get f).use (.obj .plugin p))).get q = if q = p then (h.get p).addHandlers k ts
        else h.get q := by
    rw [get_set_kind _ _ (by decide)]
    split
    · next e => rw [e, get_set_self _ _ live]
    · next e => exact get_set_ne _ _ e
  have get_fanout (q : Ref .fanout) : ((h.set p ((h.get p).addHandlers k ts)).set f
      ((h.get f).use (.obj .plugin p))).get q = if q = f then (h.get f).use (.obj .plugin p)
        else h.get q := by
    split
    · next e => rw [e, get_set_self _ _ live_f]
    · next e => rw [get_set_ne _ _ e, get_set_kind _ _ (by decide)]
  constructor
  case registries =>
    rw [set, set, table_setTable_ne _ _ (by decide), table_setTable_ne _ _ (by decide)]
  case plugins => exact fun q => live_set.trans live_set
  case fanouts => exact fun q => live_set.trans live_set
  case others => exact fun q ne => by rw [get_plugin, if_neg ne]
  case name => rw [get_plugin, if_pos rfl, Plugin.name_addHandlers]
  case home => rw [get_plugin, if_pos rfl, Plugin.registry_addHandlers]
  case sound =>
    intro sound
    rw [get_plugin, if_pos rfl]
    exact Plugin.sound_addHandlers sound k ts
  case handlers =>
    intro l
    rw [get_plugin, if_pos rfl, Plugin.handlersFor_addHandlers]
    split
    · next e => rw [e]
    · rfl
  case matchers =>
    intro κ
    rw [get_plugin, if_pos rfl, Plugin.matcherFor_addHandlers]
    rfl
  -- `f` serves no other hook of the registry, so that no other fan-out is joined
  case joined =>
    intro s l g home' serves'
    obtain rfl : r = s := by
      rw [home] at home'
      cases home'
      rfl
    rw [get_fanout, get_plugin, if_pos rfl, Plugin.handlersFor_addHandlers]
    by_cases same : l = k
    · subst same
      rw [serves] at serves'
      cases serves'
      simp [first, Handler.merge_eq_nil, added]
    · have other : g ≠ f := fun e => same
        (fitted.apart r r alive alive l k f (e ▸ serves') serves).2
      simp [same, other]
  case passed =>
    intro g outside
    rw [get_fanout, if_neg]
    rintro rfl
    exact outside r k home serves

end

end Gains
end Heap

theorem Edit.Succeeds.exactly {α : Type} {e : Edit α} {R : α → World → Prop} {w v : World} {a : α}
    (done : Succeeds e w R) (run : e w = (.ok a, v)) : Succeeds e w fun b u => b = a ∧ u = v := by
  obtain ⟨b, u, run', beside, housed, -⟩ := done
  cases run.symm.trans run'
  exact ⟨a, v, run, beside, housed, rfl, rfl⟩

namespace Plugin

variable {w : World} {p : Ref .plugin} {r : Ref .registry}

theorem gains_addParsed (fitted : w.heap.Fitted) (live : w.heap.Live p) (k : Hook)
    (ts : List Handler) : Succeeds (addParsed p k ts) w fun _ v =>
      Heap.Gains p (fun l => if l = k then ts else []) (fun _ => []) w.heap v.heap := by
  have housed := fitted.toHoused
  unfold addParsed
  refine succeeds_found (reads_read p) rfl ?_
  dsimp only
  split
  · next none =>
    have same : ∀ l, Handler.merge ((w.heap.get p).handlersFor l) (if l = k then ts else []) =
        (w.heap.get p).handlersFor l := by
      intro l
      split
      · next e =>
        subst e
        rw [handlersFor_addHandlers, if_pos rfl, Nat.sub_eq_zero_iff_le] at none
        exact Handler.merge_of_length none
      · rfl
    refine succeeds_pure housed { Heap.Gains.refl p w.heap with handlers := fun l => (same l).symm }
  · next more =>
    have added : ts ≠ [] := by
      rintro rfl
      refine more ?_
      rw [handlersFor_addHandlers, if_pos rfl]
      exact Nat.sub_self _
    have written := succeeds_set_plugin housed live (registry_addHandlers (w.heap.get p) k ts)
    refine succeeds_bind (written.exactly (run_write p _ w)) ?_
    rintro _ _ beside housed' ⟨-, rfl⟩
    split
    · next unknown =>
      rcases housed.home p live with alone | ⟨r, home, known⟩
      · rw [alone]
        refine (succeeds_debug housed').mono fun _ u same => ?_
        rw [same]
        exact Heap.Gains.set_added live fitted (.inl alone)
      · rw [home]
        obtain ⟨f, serves⟩ := housed.hooks r known k
        have first : (w.heap.get p).handlersFor k = [] := by
          by_contra given
          exact absurd (contains_of_handlersFor given) (by simpa using unknown)
        refine succeeds_found (reads_read r) rfl ?_
        rw [World.get_set_kind (k := .plugin) _ (by decide), serves]
        have joined := succeeds_fanout (f := f) (g := fun c => c.use (.obj .plugin p)) housed'
        refine succeeds_bind (joined.exactly (run_update f _ _)) ?_
        rintro _ _ - housed'' ⟨-, rfl⟩
        refine (succeeds_debug housed'').mono fun _ t same => ?_
        rw [same, World.get_set_kind (k := .plugin) _ (by decide)]
        exact Heap.Gains.set_joined live fitted home known serves first added
    · next unknown =>
      refine (succeeds_debug housed').mono fun _ u same => ?_
      rw [same]
      exact Heap.Gains.set_added live fitted (.inr (by simpa using unknown))

end Plugin

namespace Heap.Gains

variable {w : World} {p : Ref .plugin}

theorem gains_forM {γ : Type} {f : γ → Edit PUnit} {cs : List γ} (handlers : γ → Hook → List Handler)
    (patterns : γ → Key → List (List String)) (fitted : w.heap.Fitted)
    (each : ∀ c ∈ cs, ∀ v, w.heap.Beside v.heap → v.heap.Fitted → Succeeds (f c) v fun _ u =>
      Gains p (handlers c) (patterns c) v.heap u.heap) :
    Succeeds (cs.forM f) w fun _ u => Gains p (fun k => cs.flatMap (handlers · k))
      (fun κ => cs.flatMap (patterns · κ)) w.heap u.heap := by
  induction cs generalizing w with
  | nil => exact succeeds_pure fitted.toHoused (.refl p w.heap)
  | cons c cs ih =>
    refine succeeds_bind (each c List.mem_cons_self w (.refl _) fitted)
      fun _ v beside housed gains => ?_
    have fitted := gains.fitted fitted housed
    refine (ih fitted fun d mem u later => each d (List.mem_cons_of_mem _ mem) u
      (beside.trans later)).mono fun _ u rest => ?_
    exact gains.trans rest

theorem set_rule {h : Heap} {compare : Value} (live : h.Live p)
    (known : Plugin.comparison? h p = some compare) (κ : Key) (rule : Value) (ps : List String) :
    Gains p (fun _ => []) (fun l => if l = κ then [ps] else []) h
      (h.set p ((h.get p).setRule κ ⟨rule, .of compare ps⟩)) where
  registries := table_setTable_ne _ _ (by decide)
  plugins _ := live_set
  fanouts _ := live_set
  others _ ne := get_set_ne _ _ ne
  name := by rw [get_set_self _ _ live]; rfl
  home := by rw [get_set_self _ _ live]; rfl
  sound sound := by
    rw [get_set_self _ _ live]
    exact sound
  handlers _ := by rw [get_set_self _ _ live]; rfl
  matchers l := by
    rw [get_set_self _ _ live, Plugin.matcherFor_setRule]
    split <;> simp [matcherOf, known]
  joined r k f _ _ := by
    rw [get_set_self _ _ live, get_set_kind _ _ (by decide)]
    exact (if_neg fun both => both.2 both.1).symm
  passed f _ := get_set_kind _ _ (by decide)

end Heap.Gains

namespace Plugin

variable {w : World} {p : Ref .plugin}

theorem gains_setMatcher {rule compare : Value} {κ : Key} (fitted : w.heap.Fitted)
    (live : w.heap.Live p) (key : w.heap.key? rule = some κ)
    (known : comparison? w.heap p = some compare) (ps : List String) :
    Succeeds (setMatcher p rule (.of compare ps)) w fun _ v =>
      Heap.Gains p (fun _ => []) (fun l => if l = κ then [ps] else []) w.heap v.heap := by
  have written := succeeds_update_plugin (p := p) (f := fun c => c.setRule κ ⟨rule, .of compare ps⟩)
    fitted.toHoused live rfl
  refine succeeds_found (reads_key rule) key ((written.exactly (run_update p _ w)).mono ?_)
  rintro _ _ ⟨-, rfl⟩
  exact Heap.Gains.set_rule live known κ rule ps

theorem gains_rule {rule : Value × List String} {κ : Key} (fitted : w.heap.Fitted)
    (live : w.heap.Live p) (key : w.heap.key? rule.1 = some κ) :
    Succeeds (do
      let compare ← comparison p
      setMatcher p rule.1 (.of compare rule.2)) w fun _ v =>
      Heap.Gains p (fun _ => []) (fun l => if l = κ then [rule.2] else []) w.heap v.heap := by
  obtain ⟨c, known⟩ := comparison_of_home (fitted.home p live)
  exact succeeds_found (reads_comparison p) known (gains_setMatcher fitted live key known rule.2)

end Plugin

namespace Registry

variable {w : World} {p : Ref .plugin} {d : Definition}

def fill (p : Ref .plugin) (d : Definition) : Edit (Ref .plugin) := do
  d.rules.forM fun rule => do
    let compare ← Plugin.comparison p
    Plugin.setMatcher p rule.1 (.of compare rule.2)
  d.handlers.entries.forM fun e => Plugin.addParsed p e.1 e.2
  return p

theorem gains_fill (fitted : w.heap.Fitted) (live : w.heap.Live p) (storable : d.Storable w.heap) :
    Succeeds (fill p d) w fun q v => q = p ∧
      Heap.Gains p (fun k => d.handlers.entries.flatMap fun e => if k = e.1 then e.2 else [])
        (fun κ => d.rules.flatMap fun rule => if w.heap.key? rule.1 = some κ then [rule.2] else [])
        w.heap v.heap := by
  refine succeeds_bind (Heap.Gains.gains_forM (p := p) (fun _ _ => [])
    (fun rule κ => if w.heap.key? rule.1 = some κ then [rule.2] else []) fitted
    fun rule mem v beside fitted' => ?_) fun _ v beside housed' gains => ?_
  · obtain ⟨κ, known⟩ := Option.isSome_iff_exists.mp (storable rule mem)
    have key : v.heap.key? rule.1 = some κ := by rw [beside.data.key?_eq, known]
    refine (Plugin.gains_rule fitted' (beside.plugins p live) key).mono fun _ u gains => ?_
    simpa only [known, Option.some.injEq, eq_comm] using gains
  · have fitted' := gains.fitted fitted housed'
    refine succeeds_bind (Heap.Gains.gains_forM (p := p)
      (fun e k => if k = e.1 then e.2 else []) (fun _ _ => []) fitted'
      fun e _ u later fitted'' => ?_) fun _ u _ housed'' rest => ?_
    · exact Plugin.gains_addParsed fitted'' (later.plugins p (beside.plugins p live)) e.1 e.2
    · refine succeeds_pure housed'' ⟨rfl, ?_⟩
      have handlers : d.rules.flatMap (fun _ => ([] : List Handler)) = [] := by simp
      have patterns : d.handlers.entries.flatMap (fun _ => ([] : List (List String))) = [] := by simp
      simpa only [handlers, patterns, List.nil_append, List.append_nil] using gains.trans rest

end Registry

end AsyncImport
