import AsyncImport.Proofs.Gains

/-!
# What was handed to plugins

Whatever a host hands to a plugin and is accepted is a `Submission`. What plugins hold and which plugins
take part in a hook follow from the submissions so far: a heap is then `Enrolled`. It stays so when
registries and plugins are made, and when a plugin gains what one more submission gives it.
-/

namespace AsyncImport

inductive Offer where
  | definition (v : Value)
  | handlers (hook v : Value)
  | rule (name v : Value)

/-- What was handed to a plugin and accepted, with the data it was read from. -/
structure Submission where
  plugin : Ref .plugin
  heap : Heap
  offer : Offer

namespace Submission

def lists (s : Submission) (k : Hook) : List (List Handler) :=
  match s.offer with
  | .definition v => Definition.listed s.heap v k
  | .handlers hook v =>
    if Hook.ofValue? hook = some k then (Handler.listOfValue? s.heap v).toList else []
  | .rule .. => []

def entries (s : Submission) (k : Hook) : List Handler := (s.lists k).flatten

def handlers (s : Submission) (k : Hook) : List Handler := (s.lists k).getLast?.getD []

def rules (s : Submission) (κ : Key) : List (List String) :=
  match s.offer with
  | .definition v => Definition.ruled s.heap v κ
  | .handlers .. => []
  | .rule name v => if s.heap.key? name = some κ then (s.heap.patterns? v).toList else []

def reaching (p : Ref .plugin) (ss : List Submission) : List Submission :=
  ss.filter fun s => s.plugin = p

theorem reaching_append (p : Ref .plugin) (ss : List Submission) (s : Submission) :
    reaching p (ss ++ [s]) = reaching p ss ++ if s.plugin = p then [s] else [] := by
  unfold reaching
  rw [List.filter_append]
  split <;> simp_all

theorem handlers_definition {p : Ref .plugin} {h : Heap} {v : Value} {d : Definition}
    (read : Definition.read? h v = some d) :
    (⟨p, h, .definition v⟩ : Submission).handlers = fun k => (d.handlers.get? k).getD [] := by
  funext k
  rw [Definition.handlers_of_read read]
  rfl

theorem rules_definition {p : Ref .plugin} {h : Heap} {v : Value} {d : Definition}
    (read : Definition.read? h v = some d) : (⟨p, h, .definition v⟩ : Submission).rules = fun κ =>
      d.rules.flatMap fun rule => if h.key? rule.1 = some κ then [rule.2] else [] := by
  funext κ
  exact Definition.ruled_of_read read κ

end Submission

namespace Heap

variable {h g : Heap} {p : Ref .plugin} {r : Ref .registry} {ss : List Submission} {s : Submission}

structure Filled (h : Heap) (ss : List Submission) : Prop where
  live : ∀ s ∈ ss, h.Live s.plugin
  handlers : ∀ p : Ref .plugin, h.Live p → ∀ k, (h.get p).handlersFor k =
    Handler.merge [] ((Submission.reaching p ss).flatMap (Submission.handlers · k))
  patterns : ∀ p : Ref .plugin, h.Live p → ∀ κ, (h.get p).patternsFor κ =
    ((Submission.reaching p ss).flatMap (Submission.rules · κ)).getLast?.map List.eraseDups

/-- The plugins of a registry in the order in which each got its first handler for a hook. -/
def entrants (h : Heap) (r : Ref .registry) (k : Hook) (ss : List Submission) :
    List (Ref .plugin) :=
  ((ss.filter fun s : Submission =>
    (h.get s.plugin).registry = .obj .registry r ∧ s.handlers k ≠ []).map
      Submission.plugin).eraseDups

def Lined (h : Heap) (ss : List Submission) : Prop :=
  ∀ r : Ref .registry, h.Live r → ∀ k f, (h.get r).fanout? k = some f →
    (h.get f).plugins = (h.entrants r k ss).map (.obj .plugin)

structure Listed (h : Heap) : Prop where
  live : ∀ r : Ref .registry, h.Live r → ∀ p ∈ (h.get r).plugins, h.Live p
  distinct : ∀ r : Ref .registry, h.Live r → (h.get r).plugins.Nodup
  found : ∀ r : Ref .registry, h.Live r → ∀ p ∈ (h.get r).plugins,
    (h.get p).name = .none ∨ ∃ s, (h.get p).name = .str s ∧ (h.get r).named.get? s = some p
  named : ∀ r : Ref .registry, h.Live r → ∀ s p, (h.get r).named.get? s = some p →
    p ∈ (h.get r).plugins ∧ (h.get p).name = .str s

structure Enrolled (h : Heap) (ss : List Submission) : Prop where
  fitted : h.Fitted
  filled : h.Filled ss
  lined : h.Lined ss
  listed : h.Listed

/-! ## Who takes part -/

theorem entrants_congr (homes : ∀ s ∈ ss, (g.get s.plugin).registry = (h.get s.plugin).registry)
    (r : Ref .registry) (k : Hook) : g.entrants r k ss = h.entrants r k ss := by
  unfold entrants
  rw [List.filter_congr fun s mem => by rw [homes s mem]]

theorem entrants_append (r : Ref .registry) (k : Hook) (s : Submission) :
    h.entrants r k (ss ++ [s]) = h.entrants r k ss ++
      if (h.get s.plugin).registry = .obj .registry r ∧ s.handlers k ≠ [] ∧
        s.plugin ∉ h.entrants r k ss then [s.plugin] else [] := by
  unfold entrants
  rw [List.filter_append, List.map_append, List.eraseDups_append]
  congr 1
  by_cases home : (h.get s.plugin).registry = .obj .registry r <;>
    by_cases gives : s.handlers k = [] <;>
      simp [home, gives, List.removeAll, List.filter_cons, List.filter_nil]
  split <;> rfl

theorem mem_entrants (filled : h.Filled ss) {k : Hook} :
    p ∈ h.entrants r k ss ↔ h.Live p ∧ (h.get p).registry = .obj .registry r ∧
      (h.get p).handlersFor k ≠ [] := by
  unfold entrants
  rw [List.mem_eraseDups]
  constructor
  · intro mem
    obtain ⟨s, there, rfl⟩ := List.mem_map.mp mem
    obtain ⟨mem, home, gives⟩ := by simpa using there
    have live := filled.live s mem
    refine ⟨live, home, ?_⟩
    rw [filled.handlers _ live, Ne, Handler.merge_eq_nil]
    rintro ⟨-, nothing⟩
    exact gives (List.flatMap_eq_nil_iff.mp nothing s (List.mem_filter.mpr ⟨mem, by simp⟩))
  · rintro ⟨live, home, given⟩
    rw [filled.handlers p live, Ne, Handler.merge_eq_nil] at given
    have given : (Submission.reaching p ss).flatMap (Submission.handlers · k) ≠ [] :=
      fun e => given ⟨rfl, e⟩
    obtain ⟨s, mem, gives⟩ := by simpa using given
    obtain ⟨mem, is⟩ := List.mem_filter.mp mem
    have is : s.plugin = p := by simpa using is
    refine List.mem_map.mpr ⟨s, List.mem_filter.mpr ⟨mem, ?_⟩, is⟩
    simp [is, home, gives]

/-! ## Nothing is handed over -/

theorem Fitted.congr (fitted : h.Fitted) (registries : g.table .registry = h.table .registry)
    (plugins : g.table .plugin = h.table .plugin)
    (fanouts : ∀ f : Ref .fanout, h.Live f → g.Live f) (hashable : g.Hashable) : g.Fitted := by
  have get (r : Ref .registry) : g.get r = h.get r := by rw [Heap.get, Heap.get, registries]
  have known (r : Ref .registry) : g.Live r ↔ h.Live r := by rw [Live, Live, registries]
  refine ⟨fitted.toHoused.same registries plugins hashable, fun p live => ?_,
    fun r live k f serves => ?_, fun r s live alive k l f serves found => ?_⟩
  · rw [Heap.get, plugins]
    exact fitted.sound p (by rwa [Live, plugins] at live)
  · rw [get] at serves
    exact fanouts f (fitted.served r ((known r).mp live) k f serves)
  · rw [get] at serves found
    exact fitted.apart r s ((known r).mp live) ((known s).mp alive) k l f serves found

theorem Filled.congr (filled : h.Filled ss) (plugins : g.table .plugin = h.table .plugin) :
    g.Filled ss := by
  have get (p : Ref .plugin) : g.get p = h.get p := by rw [Heap.get, Heap.get, plugins]
  have live (p : Ref .plugin) : g.Live p ↔ h.Live p := by rw [Live, Live, plugins]
  refine ⟨fun s mem => (live _).mpr (filled.live s mem), fun p alive k => ?_, fun p alive κ => ?_⟩
  · rw [get]
    exact filled.handlers p ((live p).mp alive) k
  · rw [get]
    exact filled.patterns p ((live p).mp alive) κ

theorem Lined.congr (lined : h.Lined ss)
    (registries : ∀ r : Ref .registry, g.Live r → h.Live r ∧ (g.get r).fanouts = (h.get r).fanouts)
    (fanouts : ∀ r : Ref .registry, h.Live r → ∀ k f, (h.get r).fanout? k = some f →
      g.get f = h.get f)
    (homes : ∀ s ∈ ss, (g.get s.plugin).registry = (h.get s.plugin).registry) : g.Lined ss := by
  intro r alive k f serves
  obtain ⟨live, same⟩ := registries r alive
  have serves : (h.get r).fanout? k = some f := by rwa [Registry.fanout?, same] at serves
  rw [fanouts r live k f serves, entrants_congr homes]
  exact lined r live k f serves

theorem Listed.congr (listed : h.Listed) (plugins : ∀ p : Ref .plugin, h.Live p → g.Live p ∧
      (g.get p).name = (h.get p).name) (registries : g.table .registry = h.table .registry) :
    g.Listed := by
  have get (r : Ref .registry) : g.get r = h.get r := by rw [Heap.get, Heap.get, registries]
  have live (r : Ref .registry) : g.Live r ↔ h.Live r := by rw [Live, Live, registries]
  refine ⟨fun r alive p mem => ?_, fun r alive => ?_, fun r alive p mem => ?_,
    fun r alive s p known => ?_⟩
  · rw [get] at mem
    exact (plugins p (listed.live r ((live r).mp alive) p mem)).1
  · rw [get]
    exact listed.distinct r ((live r).mp alive)
  · rw [get] at mem ⊢
    rw [(plugins p (listed.live r ((live r).mp alive) p mem)).2]
    exact listed.found r ((live r).mp alive) p mem
  · rw [get] at known ⊢
    obtain ⟨mem, name⟩ := listed.named r ((live r).mp alive) s p known
    exact ⟨mem, (plugins p (listed.live r ((live r).mp alive) p mem)).2.trans name⟩

theorem Enrolled.congr (enrolled : h.Enrolled ss)
    (registries : g.table .registry = h.table .registry)
    (plugins : g.table .plugin = h.table .plugin)
    (fanouts : ∀ f : Ref .fanout, h.Live f → g.Live f ∧ g.get f = h.get f) (hashable : g.Hashable) :
    g.Enrolled ss where
  fitted := enrolled.fitted.congr registries plugins (fun f live => (fanouts f live).1) hashable
  filled := enrolled.filled.congr plugins
  lined := by
    refine enrolled.lined.congr (fun r live => ⟨by rwa [Live, registries] at live, ?_⟩)
      (fun r live k f serves => (fanouts f (enrolled.fitted.served r live k f serves)).2)
      fun s _ => ?_
    · rw [get, get, registries]
    · rw [get, get, plugins]
  listed := enrolled.listed.congr (fun p live => ⟨by rwa [Live, plugins], by rw [get, get, plugins]⟩)
    registries

/-! ## Something is handed over -/

theorem Filled.gains (filled : h.Filled ss) (live : h.Live s.plugin)
    (gains : Gains s.plugin s.handlers s.rules h g) : g.Filled (ss ++ [s]) := by
  refine ⟨fun t mem => (gains.plugins _).mpr ?_, fun p alive k => ?_, fun p alive κ => ?_⟩
  · rcases List.mem_append.mp mem with old | new
    · exact filled.live t old
    · exact List.mem_singleton.mp new ▸ live
  · have old := (gains.plugins p).mp alive
    rw [Submission.reaching_append, List.flatMap_append, Handler.merge_append,
      ← filled.handlers p old]
    split
    · next same => rw [← same, gains.handlers, List.flatMap_singleton]
    · next other => rw [gains.others p (Ne.symm other)]; rfl
  · have old := (gains.plugins p).mp alive
    rw [Submission.reaching_append, List.flatMap_append, List.getLast?_append]
    split
    · next same =>
      rw [← same, gains.patternsFor, List.flatMap_singleton, filled.patterns _ live]
      cases (s.rules κ).getLast? <;> simp
    · next other => rw [gains.others p (Ne.symm other), filled.patterns p old]; rfl

theorem Lined.gains (lined : h.Lined ss) (filled : h.Filled ss) (fitted : h.Fitted)
    (live : h.Live s.plugin) (gains : Gains s.plugin s.handlers s.rules h g) :
    g.Lined (ss ++ [s]) := by
  intro r alive k f serves
  have known := (gains.live_registry r).mp alive
  rw [gains.get_registry] at serves
  rw [entrants_congr (h := h) fun t _ => gains.registry_eq _, entrants_append, List.map_append,
    ← lined r known k f serves]
  have there := mem_entrants filled (p := s.plugin) (r := r) (k := k)
  by_cases home : (h.get s.plugin).registry = .obj .registry r
  · rw [gains.joined r k f home serves, gains.handlers]
    simp only [ne_eq, Handler.merge_eq_nil]
    by_cases before : (h.get s.plugin).handlersFor k = []
    · have absent : s.plugin ∉ h.entrants r k ss := fun mem => (there.mp mem).2.2 before
      have outside : Value.obj .plugin s.plugin ∉ (h.get f).plugins := by
        rw [lined r known k f serves]
        simpa using absent
      by_cases gives : s.handlers k = [] <;> simp [home, before, gives, absent, Fanout.use, outside]
    · simp [before, there.mpr ⟨live, home, before⟩]
  · rw [gains.passed f fun q l known' serves' => ?_]
    · simp [home]
    · -- The fan-out belongs to one registry only.
      have elsewhere : h.Live q := by
        rcases fitted.home s.plugin live with alone | ⟨q', known'', alive'⟩
        · simp [alone] at known'
        · rw [known'] at known''
          cases known''
          exact alive'
      obtain ⟨rfl, -⟩ := fitted.apart q r elsewhere known l k f serves' serves
      exact home known'

theorem Enrolled.gains (enrolled : h.Enrolled ss) (live : h.Live s.plugin)
    (gains : Gains s.plugin s.handlers s.rules h g) (housed : g.Housed) :
    g.Enrolled (ss ++ [s]) where
  fitted := gains.fitted enrolled.fitted housed
  filled := enrolled.filled.gains live gains
  lined := enrolled.lined.gains enrolled.filled enrolled.fitted live gains
  listed := enrolled.listed.congr (fun p live => ⟨(gains.plugins p).mpr live, gains.name_eq p⟩)
    gains.registries

/-! ## A plugin is made -/

theorem reaching_fresh (filled : h.Filled ss) : Submission.reaching (h.fresh .plugin) ss = [] := by
  refine List.filter_eq_nil_iff.mpr fun s mem same => ?_
  exact not_live_fresh h .plugin (of_decide_eq_true same ▸ filled.live s mem)

theorem Fitted.alloc (fitted : h.Fitted) {name registry : Value}
    (home : registry = .none ∨ ∃ r, registry = .obj .registry r ∧ h.Live r) :
    (h.alloc .plugin { name := name, registry := registry }).Fitted where
  toHoused := fitted.toHoused.alloc_plugin home
  sound p live := by
    rcases live_alloc.mp live with old | rfl
    · rw [get_alloc_live _ _ old]
      exact fitted.sound p old
    · rw [get_alloc_fresh]
      intro k there
      cases there
  served := fitted.served
  apart := fitted.apart

theorem Filled.alloc (filled : h.Filled ss) (name registry : Value) :
    (h.alloc .plugin { name := name, registry := registry }).Filled ss := by
  refine ⟨fun s mem => live_alloc.mpr (.inl (filled.live s mem)), fun p alive k => ?_,
    fun p alive κ => ?_⟩ <;> rcases live_alloc.mp alive with old | rfl
  · rw [get_alloc_live _ _ old]
    exact filled.handlers p old k
  · rw [get_alloc_fresh, reaching_fresh filled]
    rfl
  · rw [get_alloc_live _ _ old]
    exact filled.patterns p old κ
  · rw [get_alloc_fresh, reaching_fresh filled]
    rfl

theorem Enrolled.alloc (enrolled : h.Enrolled ss) (name : Value) {registry : Value}
    (home : registry = .none ∨ ∃ r, registry = .obj .registry r ∧ h.Live r) :
    (h.alloc .plugin { name := name, registry := registry }).Enrolled ss where
  fitted := enrolled.fitted.alloc home
  filled := enrolled.filled.alloc name registry
  lined := enrolled.lined.congr (fun _ live => ⟨live, rfl⟩) (fun _ _ _ _ _ => rfl)
    fun s mem => by rw [get_alloc_live _ _ (enrolled.filled.live s mem)]
  listed := enrolled.listed.congr
    (fun _ live => ⟨live_alloc.mpr (.inl live), by rw [get_alloc_live _ _ live]⟩) rfl

/-! ## A registry gets a plugin -/

def withMember (h : Heap) (r : Ref .registry) (name : Value) : Heap :=
  (h.alloc .plugin { name := name, registry := .obj .registry r }).set r
    ((h.get r).addPlugin name.str? (h.fresh .plugin))

theorem get_withMember_plugin (h : Heap) (r : Ref .registry) (name : Value) (q : Ref .plugin) :
    (h.withMember r name).get q =
      (h.alloc .plugin { name := name, registry := .obj .registry r }).get q :=
  get_set_kind _ _ (by decide)

theorem live_withMember {k : Kind} {name : Value} {q : Ref k} : (h.withMember r name).Live q ↔
    (h.alloc .plugin { name := name, registry := .obj .registry r }).Live q := live_set

theorem get_withMember_registry {name : Value} (live : h.Live r) (q : Ref .registry) :
    (h.withMember r name).get q =
      if q = r then (h.get r).addPlugin name.str? (h.fresh .plugin) else h.get q := by
  split
  · next e => rw [e]; exact get_set_self _ _ live
  · next e => exact get_set_ne _ _ e

theorem fanouts_withMember {name : Value} (live : h.Live r) (q : Ref .registry) :
    ((h.withMember r name).get q).fanouts = (h.get q).fanouts := by
  rw [get_withMember_registry live]
  split
  · next e => rw [e]; rfl
  · rfl

theorem truthy_withMember (h : Heap) (r : Ref .registry) (name v : Value) :
    (h.withMember r name).truthy v = h.truthy v := by
  have same : (h.withMember r name).length? v = h.length? v := by
    unfold length?
    split <;> rfl
  unfold truthy
  rw [same]

theorem named_addPlugin {c : Registry} {name : Value} {n : String} {p q : Ref .plugin} :
    (c.addPlugin name.str? p).named.get? n = some q ↔
      if name = .str n then q = p else c.named.get? n = some q := by
  cases name
  case str s =>
    show (c.named.insert s p).get? n = some q ↔ _
    rw [Assoc.get?_insert]
    by_cases same : n = s <;> simp [same, eq_comm]
  all_goals simp [Registry.addPlugin, Value.str?]

theorem Fitted.withMember (fitted : h.Fitted) (live : h.Live r) (name : Value) :
    (h.withMember r name).Fitted := by
  have alloc : (h.alloc .plugin { name, registry := .obj .registry r }).Fitted :=
    fitted.alloc (.inr ⟨r, rfl, live⟩)
  refine ⟨alloc.toHoused.set_registry live rfl fun s q found => ?_, fun p alive => ?_,
    fun q alive k f serves => ?_, fun q s alive known k l f serves found => ?_⟩
  · cases known : name.str? with
    | none =>
      rw [known] at found
      exact alloc.named r live s q found
    | some n =>
      have found : ((h.get r).named.insert n (h.fresh .plugin)).get? s = some q := by
        rwa [known] at found
      rw [Assoc.get?_insert] at found
      split at found
      · cases found
        exact ⟨live_fresh_alloc _ _, by rw [get_alloc_fresh]⟩
      · exact alloc.named r live s q found
  · rw [get_withMember_plugin]
    exact alloc.sound p (live_withMember.mp alive)
  · rw [Registry.fanout?, fanouts_withMember live] at serves
    exact live_withMember.mpr (alloc.served q (live_withMember.mp alive) k f serves)
  · rw [Registry.fanout?, fanouts_withMember live] at serves found
    exact fitted.apart q s (live_withMember.mp alive) (live_withMember.mp known) k l f serves found

theorem Lined.withMember (lined : h.Lined ss) (filled : h.Filled ss) (live : h.Live r)
    (name : Value) : (h.withMember r name).Lined ss := by
  refine lined.congr (fun q alive => ⟨live_withMember.mp alive, fanouts_withMember live q⟩)
    (fun q alive k f serves => get_set_kind _ _ (by decide)) fun s mem => ?_
  rw [get_withMember_plugin, get_alloc_live _ _ (filled.live s mem)]

theorem Listed.withMember (listed : h.Listed) (live : h.Live r) {name : Value}
    (proper : name = .none ∨ name.isName = true)
    (unknown : ∀ s, name = .str s → (h.get r).named.get? s = none) :
    (h.withMember r name).Listed := by
  have name_fresh : ((h.withMember r name).get (h.fresh .plugin)).name = name := by
    rw [get_withMember_plugin, get_alloc_fresh]
  have name_old {p : Ref .plugin} (old : h.Live p) :
      ((h.withMember r name).get p).name = (h.get p).name := by
    rw [get_withMember_plugin, get_alloc_live _ _ old]
  have alive {p : Ref .plugin} (old : h.Live p) : (h.withMember r name).Live p :=
    live_withMember.mpr (live_alloc.mpr (.inl old))
  have known {q : Ref .registry} (live : (h.withMember r name).Live q) : h.Live q :=
    live_withMember.mp live
  have plugins : ((h.get r).addPlugin name.str? (h.fresh .plugin)).plugins =
    (h.get r).plugins ++ [h.fresh .plugin] := rfl
  -- the new plugin comes last in the list of `r`; the other registries are as they were
  refine ⟨fun q here p mem => ?_, fun q here => ?_, fun q here p mem => ?_,
    fun q here s p found => ?_⟩
  · rw [get_withMember_registry live] at mem
    split at mem
    · rcases List.mem_append.mp mem with old | new
      · exact alive (listed.live r live p old)
      · exact List.mem_singleton.mp new ▸ live_withMember.mpr (live_fresh_alloc _ _)
    · exact alive (listed.live q (known here) p mem)
  · rw [get_withMember_registry live]
    split
    · rw [plugins]
      refine List.nodup_append.mpr ⟨listed.distinct r live, List.nodup_singleton _, ?_⟩
      intro p old q new
      rw [List.mem_singleton.mp new]
      exact ne_fresh (listed.live r live p old)
    · exact listed.distinct q (known here)
  · rw [get_withMember_registry live] at mem ⊢
    split at mem
    · next e =>
      subst e
      rw [if_pos rfl]
      simp only [named_addPlugin]
      rcases List.mem_append.mp mem with old | new
      · rw [name_old (listed.live q live p old)]
        rcases listed.found q live p old with nameless | ⟨s, named, found⟩
        · exact .inl nameless
        · refine .inr ⟨s, named, ?_⟩
          rw [if_neg fun e => ?_]
          · exact found
          · rw [unknown s e] at found
            cases found
      · rw [List.mem_singleton.mp new, name_fresh]
        rcases proper with nameless | proper
        · exact .inl nameless
        · cases name <;> simp_all [Value.isName]
    · next other =>
      rw [if_neg other, name_old (listed.live q (known here) p mem)]
      exact listed.found q (known here) p mem
  · rw [get_withMember_registry live] at found ⊢
    split at found
    · next e =>
      subst e
      rw [if_pos rfl, plugins]
      rw [named_addPlugin] at found
      split at found
      · next is =>
        rw [found, name_fresh]
        exact ⟨by simp, is⟩
      · obtain ⟨mem, named⟩ := listed.named q live s p found
        exact ⟨List.mem_append_left _ mem, (name_old (listed.live q live p mem)).trans named⟩
    · next other =>
      rw [if_neg other]
      obtain ⟨mem, named⟩ := listed.named q (known here) s p found
      exact ⟨mem, (name_old (listed.live q (known here) p mem)).trans named⟩

theorem Enrolled.withMember (enrolled : h.Enrolled ss) (live : h.Live r) {name : Value}
    (proper : name = .none ∨ name.isName = true)
    (unknown : ∀ s, name = .str s → (h.get r).named.get? s = none) :
    (h.withMember r name).Enrolled ss where
  fitted := enrolled.fitted.withMember live name
  filled := (enrolled.filled.alloc name (.obj .registry r)).congr
    (by rw [Heap.withMember, Heap.set, table_setTable_ne _ _ (by decide)])
  lined := enrolled.lined.withMember enrolled.filled live name
  listed := enrolled.listed.withMember live proper unknown

/-! ## A registry is made -/

theorem Enrolled.start (registries : h.registries = #[]) (plugins : h.plugins = #[])
    (hashable : h.Hashable) : h.Enrolled [] := by
  have nowhere (r : Ref .registry) : ¬ h.Live r := by simp [Live, table, registries]
  have nobody (p : Ref .plugin) : ¬ h.Live p := by simp [Live, table, plugins]
  constructor
  · exact ⟨⟨fun r live => absurd live (nowhere r), fun p live => absurd live (nobody p),
      fun r live => absurd live (nowhere r), hashable⟩, fun p live => absurd live (nobody p),
      fun r live => absurd live (nowhere r), fun r _ live => absurd live (nowhere r)⟩
  · exact ⟨by simp, fun p live => absurd live (nobody p), fun p live => absurd live (nobody p)⟩
  · exact fun r live => absurd live (nowhere r)
  · exact ⟨fun r live => absurd live (nowhere r), fun r live => absurd live (nowhere r),
      fun r live => absurd live (nowhere r), fun r live => absurd live (nowhere r)⟩

theorem Enrolled.alloc_registry {c : Registry} (enrolled : h.Enrolled ss)
    (serves : ∀ k, ∃ f, c.fanout? k = some f) (nobody : c.named = {}) (empty : c.plugins = [])
    (new : ∀ k f, c.fanout? k = some f → h.Live f ∧ (h.get f).plugins = [] ∧
      ∀ r : Ref .registry, h.Live r → ∀ l, (h.get r).fanout? l ≠ some f)
    (apart : ∀ k l f, c.fanout? k = some f → c.fanout? l = some f → k = l) :
    (h.alloc .registry c).Enrolled ss where
  fitted := by
    refine ⟨enrolled.fitted.toHoused.alloc_registry serves nobody, enrolled.fitted.sound,
      fun r alive k f found => ?_, fun r s alive known k l f found other => ?_⟩
    · rcases live_alloc.mp alive with old | rfl
      · rw [get_alloc_live _ _ old] at found
        exact enrolled.fitted.served r old k f found
      · rw [get_alloc_fresh] at found
        exact (new k f found).1
    · rcases live_alloc.mp alive with old | rfl <;> rcases live_alloc.mp known with there | rfl
      · rw [get_alloc_live _ _ old] at found
        rw [get_alloc_live _ _ there] at other
        exact enrolled.fitted.apart r s old there k l f found other
      · rw [get_alloc_live _ _ old] at found
        rw [get_alloc_fresh] at other
        exact absurd found ((new l f other).2.2 r old k)
      · rw [get_alloc_fresh] at found
        rw [get_alloc_live _ _ there] at other
        exact absurd other ((new k f found).2.2 s there l)
      · rw [get_alloc_fresh] at found other
        exact ⟨rfl, apart k l f found other⟩
  filled := enrolled.filled.congr rfl
  lined r alive k f found := by
    rcases live_alloc.mp alive with old | rfl
    · rw [get_alloc_live _ _ old] at found
      exact enrolled.lined r old k f found
    · rw [get_alloc_fresh] at found
      have nobody : (h.alloc .registry c).entrants (h.fresh .registry) k ss = [] := by
        refine List.eq_nil_iff_forall_not_mem.mpr fun p mem => ?_
        have filled : (h.alloc .registry c).Filled ss := enrolled.filled.congr rfl
        obtain ⟨live, home, -⟩ := (mem_entrants filled).mp mem
        rcases enrolled.fitted.home p live with alone | ⟨r, known, old⟩
        · exact absurd (alone.symm.trans home) (by simp)
        · cases known.symm.trans home
          exact not_live_fresh h .registry old
      rw [nobody]
      exact (new k f found).2.1
  listed := by
    have plain : (h.alloc .registry c).get (h.fresh .registry) = c := get_alloc_fresh _ _
    refine ⟨fun r alive p mem => ?_, fun r alive => ?_, fun r alive p mem => ?_,
      fun r alive s p found => ?_⟩ <;> rcases live_alloc.mp alive with old | rfl
    · rw [get_alloc_live _ _ old] at mem
      exact enrolled.listed.live r old p mem
    · simp [plain, empty] at mem
    · rw [get_alloc_live _ _ old]
      exact enrolled.listed.distinct r old
    · simp [plain, empty]
    · rw [get_alloc_live _ _ old] at mem ⊢
      exact enrolled.listed.found r old p mem
    · simp [plain, empty] at mem
    · rw [get_alloc_live _ _ old] at found ⊢
      exact enrolled.listed.named r old s p found
    · simp [plain, nobody] at found

end Heap
end AsyncImport
