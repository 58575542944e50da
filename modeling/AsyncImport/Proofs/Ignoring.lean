import AsyncImport.Proofs.Rulings

/-!
# Which names are passed over

The rules of a manager start with the entries of its settings, as if each had been added by a call.
`matches_iff_standing` says for any sequence of calls that a name matches by the patterns that stand and
by nothing else.
-/

namespace AsyncImport

open Edit Routine

namespace IgnoreRules

section

variable {k : Hook} {r : Ref .ignoreRules} {w v : World} {compare : Value} {ss : List Ruling}

/-! ## Rules of a manager -/

theorem addFor_kept {stage ps : Value} (live : w.heap.Live r)
    (run : addFor r stage ps w = (.ok (), v)) : w.heap.SameData v.heap ∧
      ∀ s : Ref .rules, v.heap.get s = w.heap.get s := by
  rcases addFor_cases live stage ps with ⟨h, qs, -, -, added⟩ | ⟨f, u, refused, -⟩
  · rw [added] at run
    cases run
    exact ⟨⟨rfl, rfl, rfl⟩, fun s => (World.get_set_kind _ (by decide)).trans
      (World.get_set_kind _ (by decide))⟩
  · rw [refused] at run
    cases run

theorem agrees_entries {entries : List (Value × Value)} (agrees : Agrees r compare ss w)
    (run : (entries.forM fun e => addFor r e.1 e.2) w = (.ok (), v)) : Agrees r compare
      (ss ++ entries.map fun e => ⟨.add e.1 e.2, (w.heap.patterns? e.2).getD [], true⟩) v ∧
        ∀ s : Ref .rules, v.heap.get s = w.heap.get s := by
  induction entries generalizing ss w with
  | nil =>
    cases run
    exact ⟨by simpa using agrees, fun _ => rfl⟩
  | cons e entries ih =>
    obtain ⟨_, u, added, rest⟩ := bind_ok run
    have first := agrees_addFor (c := .add e.1 e.2) agrees (.inl rfl)
    rw [show addFor r e.1 e.2 w = (.ok (), u) from added] at first
    obtain ⟨data, kept⟩ := addFor_kept agrees.1 added
    obtain ⟨holds, later⟩ := ih first rest
    simp only [data.patterns?_eq, List.append_assoc] at holds
    exact ⟨holds, fun s => (later s).trans (kept s)⟩

theorem given_same (data : w.heap.SameData v.heap)
    (kept : v.heap.table .settings = w.heap.table .settings) (settings : Value) :
    given v.heap settings = given w.heap settings := by
  simp only [given, entriesOf, Heap.get, kept, data.dict?_eq, data.patterns?_eq]

theorem agrees_new (compare : Value) (w : World) :
    Agrees (w.heap.fresh .ignoreRules) compare [] (w.alloc .ignoreRules { compare := compare }) := by
  refine ⟨World.live_alloc.mpr (.inr rfl), ?_⟩
  rw [World.get_alloc, if_pos rfl]
  exact .new compare

theorem made_ok {k : Kind} {c : Cell k} {s : Ref k} (run : Edit.create k c w = (.ok s, v)) :
    s = w.heap.fresh k ∧ v = w.alloc k c := by
  rw [run_create] at run
  cases run
  exact ⟨rfl, rfl⟩

theorem createRules_ok {settings : Value} {s : Ref .rules}
    (run : Manager.createRules settings w = (.ok s, v)) :
    Agrees (v.heap.get s).ignore (.library .globMatch) (given w.heap settings) v := by
  obtain ⟨ignore, u, made, run⟩ := bind_ok run
  obtain ⟨rules, z, filed, run⟩ := bind_ok run
  obtain ⟨rfl, rfl⟩ := made_ok made
  obtain ⟨rfl, rfl⟩ := made_ok filed
  generalize filed : (w.alloc .ignoreRules {}).heap.fresh .rules = rules at run
  generalize started : (w.alloc .ignoreRules {}).alloc .rules ⟨w.heap.fresh .ignoreRules⟩ = u at run
  have agrees : Agrees (w.heap.fresh .ignoreRules) (.library .globMatch) [] u := by
    subst started
    exact agrees_same (agrees_new _ w) ((World.live_alloc_kind (by decide)).mpr (agrees_new _ w).1)
      (World.get_alloc_kind (k := .rules) _ (by decide))
  have known : u.heap.get rules = ⟨w.heap.fresh .ignoreRules⟩ := by
    rw [← started, ← filed, World.get_alloc, if_pos rfl]
  have data : w.heap.SameData u.heap := started ▸ ⟨rfl, rfl, rfl⟩
  have kept : u.heap.table .settings = w.heap.table .settings := started ▸ rfl
  rw [← given_same data kept settings]
  cases settings with
  | obj k t =>
    cases k with
    | settings =>
      obtain ⟨_, z, here, run⟩ := bind_ok run
      cases here
      obtain ⟨_, z, here, run⟩ := bind_ok run
      cases here
      cases found : u.heap.dict? (u.heap.get t).ignore with
      | none =>
        simp only [found] at run
        cases run
      | some entries =>
        simp only [found] at run
        obtain ⟨_, z, added, ends⟩ := bind_ok run
        cases ends
        obtain ⟨holds, same⟩ := agrees_entries agrees added
        rw [same, known]
        show Agrees _ _ (List.map _ ((Option.map Dict.items _).getD [])) v
        rw [found]
        exact holds
    | _ => cases run
  | _ => cases run

theorem table_alloc {k l : Kind} (c : Cell k) (ne : l ≠ k) :
    (w.alloc k c).heap.table l = w.heap.table l := Heap.table_setTable_ne _ _ ne

theorem run_createRegistry (resolver directResolver compare : Value) (w : World) : ∃ s v,
    Registry.create resolver directResolver compare w = (.ok s, v) ∧
      ∀ k, k = .rules ∨ k = .ignoreRules → v.heap.table k = w.heap.table k := by
  simp only [Registry.create, Hook.all, List.mapM_cons, List.mapM_nil, run_bind, run_create, run_pure]
  refine ⟨_, _, rfl, fun k is => ?_⟩
  rcases is with rfl | rfl <;> simp [table_alloc]

theorem run_createFor (m : Ref .manager) (w : World) : ∃ l v,
    Loader.createFor (.obj .manager m) w = (.ok l, v) ∧
      ∀ k, k = .rules ∨ k = .ignoreRules → v.heap.table k = w.heap.table k := by
  refine ⟨_, _, rfl, fun k is => ?_⟩
  rcases is with rfl | rfl <;> rfl

def settingsOf (v : Value) : Edit Value := do
  match v with
  | .none => return .obj .settings (← Settings.createDefault)
  | v => return v

def busOf (v : Value) : Edit Value := do
  match v with
  | .none => return .obj .bus (← Edit.create .bus {})
  | v => return v

def supply (o : Manager.Options) (self : Ref .manager) (settings events : Value) :
    Edit (Ref .manager) := do
  let resolver ← Manager.provider o.resolver .defaultResolve
  let fetcher ← Manager.provider o.fetcher .missingFetch
  let compiler ← Manager.provider o.compiler .missingCompile
  let linker ← Manager.provider o.linker .linkModule
  let rules ← Manager.createRules settings
  let plugins ← Registry.create (← readMethod .manager self .importModule)
    (← readMethod .manager self .require) (.library .globMatch)
  let loader ← Loader.createFor (.obj .manager self)
  Edit.create .manager
    { settings := settings, events := events, resolver := resolver, fetcher := fetcher
      compiler := compiler, linker := linker, rules := rules, plugins := plugins
      loader := loader }
theorem create_eq (o : Manager.Options) : Manager.create o = (do
    let h ← (liftM heap : Edit Heap)
    let settings ← settingsOf o.settings
    let events ← busOf o.events
    supply o (h.fresh .manager) settings events) := by
  obtain ⟨resolver, fetcher, compiler, linker, settings, events⟩ := o
  unfold Manager.create settingsOf busOf
  congr 1
  funext h
  dsimp only
  split <;> simp only [pure_bind, LawfulMonad.bind_assoc]
  · congr 1
    funext s
    split <;> simp only [pure_bind, LawfulMonad.bind_assoc, supply]
  · split <;> simp only [pure_bind, LawfulMonad.bind_assoc, supply]

theorem provider_ok {given x : Value} {p : Procedure}
    (run : Manager.provider given p w = (.ok x, v)) : v = w := by
  have asked : (truthy given).run w = (.ok (w.heap.truthy given), w) := rfl
  unfold Manager.provider at run
  simp only [run_bind, run_lift, asked] at run
  split at run <;> cases run <;> rfl

theorem supply_ok {o : Manager.Options} {m self : Ref .manager} {settings events : Value}
    (run : supply o self settings events w = (.ok m, v)) :
    Agrees (v.heap.get (v.heap.get m).rules).ignore (.library .globMatch) (given w.heap settings) v := by
  obtain ⟨resolver, u₁, resolves, run⟩ := bind_ok run
  obtain ⟨fetcher, u₂, fetches, run⟩ := bind_ok run
  obtain ⟨compiler, u₃, compiles, run⟩ := bind_ok run
  obtain ⟨linker, u₄, links, run⟩ := bind_ok run
  obtain ⟨rules, u, ruled, run⟩ := bind_ok run
  obtain ⟨_, y₁, read, run⟩ := bind_ok run
  obtain ⟨_, y₂, reads, run⟩ := bind_ok run
  obtain ⟨plugins, z, registered, run⟩ := bind_ok run
  obtain ⟨loader, b, made, run⟩ := bind_ok run
  have same : u₄ = w := by
    rw [provider_ok links, provider_ok compiles, provider_ok fetches, provider_ok resolves]
  have agrees := createRules_ok (same ▸ ruled)
  obtain ⟨rfl, rfl⟩ := made_ok run
  have kept (k : Kind) (is : k = .rules ∨ k = .ignoreRules) : b.heap.table k = u.heap.table k := by
    have methods : y₂.heap.table k = u.heap.table k := by
      cases read
      cases reads
      rcases is with rfl | rfl <;> rfl
    obtain ⟨_, _, first, tables⟩ := run_createRegistry _ _ _ y₂
    obtain ⟨_, _, next, later⟩ := run_createFor self z
    cases registered.symm.trans first
    cases made.symm.trans next
    exact (later k is).trans ((tables k is).trans methods)
  have filed : b.heap.get rules = u.heap.get rules := by
    rw [Heap.get, kept .rules (.inl rfl), Heap.get]
  have cell (s : Ref .ignoreRules) : b.heap.get s = u.heap.get s := by
    rw [Heap.get, kept .ignoreRules (.inr rfl), Heap.get]
  have live (s : Ref .ignoreRules) (live : u.heap.Live s) : b.heap.Live s := by
    rwa [Heap.Live, kept .ignoreRules (.inr rfl)]
  rw [World.get_alloc, if_pos rfl, World.get_alloc_kind (k := .manager) _ (by decide), filed]
  exact agrees_same agrees ((World.live_alloc_kind (by decide)).mpr (live _ agrees.1))
    ((World.get_alloc_kind (k := .manager) _ (by decide)).trans (cell _))

theorem settingsOf_ok {given x : Value} (run : settingsOf given w = (.ok x, v)) :
    IgnoreRules.given v.heap x = IgnoreRules.given w.heap given := by
  unfold settingsOf at run
  split at run
  · -- Settings made for the occasion have no entries.
    obtain ⟨s, u, made, ends⟩ := bind_ok run
    obtain ⟨d, z, listed, made⟩ := bind_ok made
    rw [run_lift, Quiet.run_newDict] at listed
    cases listed
    obtain ⟨rfl, rfl⟩ := made_ok made
    cases ends
    have empty : ((w.alloc .dict {}).alloc .settings
        { ignore := .obj .dict (w.heap.fresh .dict) }).heap.get (w.heap.fresh .dict) = {} := by
      rw [World.get_alloc_kind (k := .settings) _ (by decide), World.get_alloc, if_pos rfl]
    simp only [IgnoreRules.given, entriesOf, World.get_alloc, if_true, Heap.dict?, empty]
    rfl
  · cases run
    rfl

theorem busOf_ok {given x : Value} (run : busOf given w = (.ok x, v)) (settings : Value) :
    IgnoreRules.given v.heap settings = IgnoreRules.given w.heap settings := by
  unfold busOf at run
  split at run
  · obtain ⟨b, u, made, ends⟩ := bind_ok run
    obtain ⟨rfl, rfl⟩ := made_ok made
    cases ends
    exact given_same ⟨rfl, rfl, rfl⟩ rfl settings
  · cases run
    rfl

theorem create_ok {o : Manager.Options} {m : Ref .manager} (run : Manager.create o w = (.ok m, v)) :
    Agrees (v.heap.get (v.heap.get m).rules).ignore (.library .globMatch)
      (given w.heap o.settings) v := by
  rw [create_eq] at run
  obtain ⟨h, _, looked, run⟩ := bind_ok run
  cases looked
  obtain ⟨settings, u, chosen, run⟩ := bind_ok run
  obtain ⟨events, z, heard, run⟩ := bind_ok run
  rw [← settingsOf_ok chosen, ← busOf_ok heard]
  exact supply_ok run

/-! ## Asking -/

theorem agrees_of_ruled (ruled : Ruled r compare ss w) : Agrees r compare ss w := by
  induction ruled with
  | made run =>
    obtain ⟨rfl, rfl⟩ := made_ok run
    exact agrees_new _ _
  | managed run own => exact own ▸ create_ok run
  | meanwhile _ live same ih => exact agrees_same ih live same
  | called _ c sound unfolds ih => exact agrees_called ih sound unfolds

def asks (r : Ref .ignoreRules) (name : String) (stage : Value) : Routine Value :=
  callMember (.obj .ignoreRules r) ⟨"match", some .matches⟩ ⟨[.str name, stage], []⟩

/-- What the function that compares texts says of a name in the course of some exchanges: the glob of a
pattern admits the name or not; any other function is asked, and answers by `accepts`. -/
def Decides (compare : Value) (name : String) (accepts : String → Bool) (l : List Exchange) : Prop :=
  if compare = .library .globMatch then ∀ p, accepts p = Glob.admits p name
  else ∀ x ∈ l, ∀ p, x.request = .call (.invoke compare [.str name, .str p]) →
    ∃ a, x.outcome = .ok a ∧ x.after.heap.truthy a = accepts p

variable {name : String} {accepts : String → Bool} {l : List Exchange}

theorem Decides.of_subset {m : List Exchange} (decides : Decides compare name accepts l)
    (within : m ⊆ l) : Decides compare name accepts m := by
  unfold Decides at *
  split
  · next own => rwa [if_pos own] at decides
  · next foreign =>
    rw [if_neg foreign] at decides
    exact fun x mem => decides x (within mem)

theorem compareWith_decided {p : String} {o : Except (Ref .failure) Bool}
    (unfolds : (Matcher.compareWith compare (.str name) p).Unfolds w l o v)
    (decides : Decides compare name accepts l) : o = .ok (accepts p) := by
  by_cases own : compare = .library .globMatch
  · subst own
    have unfolds : (edit (globMatch (.str name) (.str p)).run).Unfolds w l o v := unfolds
    obtain ⟨rfl, ends⟩ := unfolds_edit.mp unfolds
    cases ends
    rw [Decides, if_pos rfl] at decides
    rw [decides]
  · rw [Decides, if_neg own] at decides
    unfold Matcher.compareWith at unfolds
    split at unfolds
    · contradiction
    · rcases unfolds_bind.mp unfolds with ⟨a, m, n, u, rfl, asked, told⟩ | ⟨e, rfl, asked⟩
      · obtain rfl := unfolds_perform.mp asked
        obtain ⟨_, ⟨⟩, same⟩ := decides _ (List.mem_append_left _ List.mem_cons_self) p rfl
        obtain ⟨rfl, ends⟩ := unfolds_edit.mp told
        cases ends
        rw [← same]
      · obtain rfl := unfolds_perform.mp asked
        obtain ⟨_, ⟨⟩, -⟩ := decides _ List.mem_cons_self p rfl

theorem anyM_decided {ps : List String} {o : Except (Ref .failure) Bool}
    (unfolds : (ps.anyM (Matcher.compareWith compare (.str name))).Unfolds w l o v)
    (decides : Decides compare name accepts l) : o = .ok (ps.any accepts) := by
  induction ps generalizing w l with
  | nil =>
    obtain ⟨-, rfl, -⟩ := unfolds_done.mp unfolds
    rfl
  | cons p ps ih =>
    rw [List.anyM_cons] at unfolds
    rcases unfolds_bind.mp unfolds with ⟨a, m, n, u, rfl, asked, later⟩ | ⟨e, rfl, asked⟩
    · have first := compareWith_decided asked (decides.of_subset (List.subset_append_left _ _))
      cases first
      cases accepted : accepts p <;> rw [accepted] at later
      · rw [ih later (decides.of_subset (List.subset_append_right _ _)), List.any_cons, accepted]
        rfl
      · obtain ⟨-, rfl, -⟩ := unfolds_done.mp later
        rw [List.any_cons, accepted]
        rfl
    · cases compareWith_decided asked decides

theorem asks_decided {stage : Value} {o : Outcome} (agrees : Agrees r compare ss w)
    (denotes : Hook.ofValue? stage = some k) (unfolds : (asks r name stage).Unfolds w l o v)
    (decides : Decides compare name accepts l) :
    ∃ b, o = .ok (.bool b) ∧ (b = true ↔ ∃ p, Standing k ss p ∧ accepts p = true) := by
  have bound : Parameter.bind [required .name, required .stage] [.str name, stage] [] w =
    (.ok [.str name, stage], w) := rfl
  have parsed : (Hook.parse stage).run w = (.ok k, w) := (reads_hook stage).found denotes
  have rules : (Edit.read r).run w = (.ok (w.heap.get r), w) := rfl
  have unfolds : (((edit (Hook.parse stage).run).bind fun h => (edit (Edit.read r).run).bind fun c =>
      c.ignores (.str name) h).bind fun b => .done (.bool b)).Unfolds w l o v :=
    (unfolds_doing bound).mp unfolds
  have answered {m : List Exchange} {q : Except (Ref .failure) Bool} {u : World} (within : m ⊆ l)
      (asked : ((edit (Hook.parse stage).run).bind fun h => (edit (Edit.read r).run).bind fun c =>
        c.ignores (.str name) h).Unfolds w m q u) :
      q = .ok (((w.heap.get r).matcher k).patterns.any accepts) := by
    have asked := (unfolds_doing rules).mp ((unfolds_doing parsed).mp asked)
    have asked : (((w.heap.get r).matcher k).accepts (.str name)).Unfolds w m q u :=
      ignores_eq name ▸ asked
    unfold Matcher.accepts at asked
    rw [if_neg (by simp), agrees.2.matchers k] at asked
    exact anyM_decided asked (decides.of_subset within)
  rcases unfolds_bind.mp unfolds with ⟨b, m, n, u, rfl, asked, ends⟩ | ⟨e, rfl, asked⟩
  · obtain ⟨-, rfl, -⟩ := unfolds_done.mp ends
    cases answered (List.subset_append_left _ _) asked
    refine ⟨_, rfl, ?_⟩
    simp only [List.any_eq_true, agrees.2.patterns]
  · cases answered (List.Subset.refl _) asked

/-- A name is passed over in a stage if it matches a pattern of the calls that were accepted since the
stage was last cleared, and only then. Histories that differ in ways that make no difference to the stage
give the same answers. -/
theorem matches_iff_standing (ruled : Ruled r compare ss w) {stage : Value}
    (denotes : Hook.ofValue? stage = some k) (name : String) :
    (∀ answer, ∃ l o v, (asks r name stage).Unfolds w l o v ∧ Answered answer l) ∧
    (∀ accepts l o v, (asks r name stage).Unfolds w l o v → Decides compare name accepts l →
      ∃ b, o = .ok (.bool b) ∧ (b = true ↔ ∃ p, Standing k ss p ∧ accepts p = true)) ∧
    ∀ s ts u other, Ruled s compare ts u → Amounts k ss ts → Hook.ofValue? other = some k →
      ∀ accepts l m o q v z, (asks r name stage).Unfolds w l o v → Decides compare name accepts l →
      (asks s name other).Unfolds u m q z → Decides compare name accepts m → q = o := by
  have agrees := agrees_of_ruled ruled
  refine ⟨fun answer => exists_unfolds _ answer w, fun accepts l o v unfolds decides =>
    asks_decided agrees denotes unfolds decides, ?_⟩
  intro s ts u other ruled amounts same accepts l m o q v z here decides there decided
  obtain ⟨a, rfl, first⟩ := asks_decided agrees denotes here decides
  obtain ⟨b, rfl, next⟩ := asks_decided (agrees_of_ruled ruled) same there decided
  have same : a = true ↔ b = true := by
    rw [first, next]
    simp only [standing_amounts amounts]
  cases a <;> cases b <;> simp_all

end

/-! ## Rules from settings, and calls on a manager -/

def configured : World where
  heap :=
    { dicts := #[Dict.ofTexts [("fetch", .obj .list ⟨0⟩)]], lists := #[[.str "vendor/*"]]
      settings := #[{ ignore := .obj .dict ⟨0⟩ }] }

def managed : World := (Manager.create { settings := .obj .settings ⟨0⟩ } configured).2

def idle (_ : Request) (w : World) : Outcome × World := (.ok .none, w)

def ignored : World :=
  ((Call.ignore ⟨0⟩ (.str "transform") (.str "lib/*")).run ⟨0⟩ |>.traced idle managed).2.2

def refused : World := ((Call.add (.hook .fetch) (.int 3)).run ⟨0⟩ |>.traced idle ignored).2.2

def cleared : World := ((Call.clear (.str "transform")).run ⟨0⟩ |>.traced idle refused).2.2

def rulings : List Ruling :=
  [⟨.add (.str "fetch") (.obj .list ⟨0⟩), ["vendor/*"], true⟩,
    ⟨.ignore ⟨0⟩ (.str "transform") (.str "lib/*"), ["lib/*"], true⟩,
    ⟨.add (.hook .fetch) (.int 3), [], false⟩, ⟨.clear (.str "transform"), [], true⟩]

theorem ruled_cleared : Ruled ⟨0⟩ (.library .globMatch) rulings cleared := by
  have made : Manager.create { settings := .obj .settings ⟨0⟩ } configured = (.ok ⟨0⟩, managed) := rfl
  have start := Ruled.managed (r := ⟨0⟩) made (by decide +kernel)
  have first := start.called (.ignore ⟨0⟩ (.str "transform") (.str "lib/*")) (by
    show _ = _
    decide +kernel) (unfolds_traced idle _ managed)
  have next := first.called (.add (.hook .fetch) (.int 3)) trivial (unfolds_traced idle _ ignored)
  have last := next.called (.clear (.str "transform")) trivial (unfolds_traced idle _ refused)
  refine (congrArg (fun ss => Ruled ⟨0⟩ (.library .globMatch) ss cleared) ?_).mp last
  decide +kernel

theorem not_standing_cleared {ss : List Ruling} {s : Ruling} {p : String} (clears : s.Clears k) :
    ¬ Standing k (ss ++ [s]) p := by
  rw [standing_snoc]
  rintro (⟨adds, -⟩ | ⟨-, keeps⟩)
  · exact adds.not_clears clears
  · exact keeps clears

theorem matches_iff_standing_one : ∃ l v m z,
    (asks ⟨0⟩ "vendor/a" (.hook .fetch)).Unfolds cleared l (.ok (.bool true)) v ∧
      (asks ⟨0⟩ "lib/a" (.str "transform")).Unfolds cleared m (.ok (.bool false)) z := by
  obtain ⟨-, fetching, -⟩ :=
    matches_iff_standing ruled_cleared (show Hook.ofValue? (.hook .fetch) = some .fetch from rfl) "vendor/a"
  obtain ⟨-, transforming, -⟩ :=
    matches_iff_standing ruled_cleared
      (show Hook.ofValue? (.str "transform") = some .transform by decide) "lib/a"
  have here := unfolds_traced idle (asks ⟨0⟩ "vendor/a" (.hook .fetch)) cleared
  have there := unfolds_traced idle (asks ⟨0⟩ "lib/a" (.str "transform")) cleared
  have glob (name : String) (l : List Exchange) :
      Decides (.library .globMatch) name (Glob.admits · name) l := by
    rw [Decides, if_pos rfl]
    exact fun _ => rfl
  obtain ⟨b, fetched, admits⟩ := fetching _ _ _ _ here (glob _ _)
  obtain ⟨c, transformed, stands⟩ := transforming _ _ _ _ there (glob _ _)
  have kept : b = true := admits.mpr
    ⟨"vendor/*", ⟨[], _, _, rfl, ⟨rfl, rfl, by decide⟩, by decide, by decide⟩, by decide +kernel⟩
  have gone : c = false := Bool.eq_false_iff.mpr fun matched => by
    obtain ⟨p, standing, -⟩ := stands.mp matched
    have clears : (⟨.clear (.str "transform"), [], true⟩ : Ruling).Clears .transform :=
      ⟨rfl, rfl, by decide⟩
    have last : rulings = rulings.dropLast ++ [⟨.clear (.str "transform"), [], true⟩] := rfl
    rw [last] at standing
    exact not_standing_cleared clears standing
  rw [fetched, kept] at here
  rw [transformed, gone] at there
  exact ⟨_, _, _, _, here, there⟩

end IgnoreRules
end AsyncImport
