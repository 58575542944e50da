import AsyncImport.Plugin.Run
import AsyncImport.Proofs.Declarations
import AsyncImport.Proofs.Transcripts

/-!
# Who takes part

Which plugins of a fan-out run for a draft is settled before the first handler, by the draft as it is
and by the answers of the functions that compare texts with patterns. `Roll.settles_selected` says what
is asked and who is selected, provided that these functions leave the draft and the plugins alone.
-/

namespace AsyncImport

open Edit Routine

structure Draft.Plain (d : Draft) : Prop where
  name : ∃ s, d.name = .str s
  path : d.path = .none ∨ ∃ s, d.path = .str s
  plugins : ∃ l, d.plugins = .obj .list l

namespace Draft

def compared (d : Draft) (rule : Value) : Value :=
  if rule = .str "name" then d.name else if d.path.isName then d.path else d.name

variable {d : Draft}

theorem truthy_str (h : Heap) (s : String) : h.truthy (.str s) = Value.isName (.str s) := by
  show decide (s.length ≠ 0) = !s.isEmpty
  by_cases e : s = "" <;> simp [e]

theorem truthy_path (plain : d.Plain) (h : Heap) : h.truthy d.path = d.path.isName := by
  rcases plain.path with path | ⟨s, path⟩ <;> rw [path]
  · rfl
  · exact truthy_str h s

theorem run_ruleValue (plain : d.Plain) (rule : Value) (w : World) :
    (Plugin.ruleValue d rule).run w = (.ok (d.compared rule), w) := by
  unfold Plugin.ruleValue compared
  by_cases named : rule = .str "name" <;> by_cases path : d.path.isName <;>
    simp [named, path, truthy, Quiet.run_map, truthy_path plain]

theorem compared_text (plain : d.Plain) (rule : Value) : ∃ s, d.compared rule = .str s := by
  unfold compared
  split
  · exact plain.name
  · split
    · rcases plain.path with path | path
      · simp_all [Value.isName]
      · exact path
    · exact plain.name

end Draft

/-! ## Questions and answers -/

inductive Judged (compare value : Value) (pattern : String) : List Exchange → Bool → Prop
  | glob {text : String} (own : compare = .library .globMatch) (is : value = .str text) :
      Judged compare value pattern [] (Glob.admits pattern text)
  | asked {x : Exchange} {a : Value} (foreign : compare ≠ .library .globMatch)
      (request : x.request = .call (.invoke compare [value, .str pattern]))
      (answer : x.outcome = .ok a) : Judged compare value pattern [x] (x.after.heap.truthy a)

section

variable {β : Type}

inductive FirstOf (tries : β → List Exchange → Bool → Prop) : List β → List Exchange → Bool → Prop
  | none : FirstOf tries [] [] false
  | hit {b bs l} (accepted : tries b l true) : FirstOf tries (b :: bs) l true
  | miss {b bs l m a} (refused : tries b l false) (later : FirstOf tries bs m a) :
      FirstOf tries (b :: bs) (l ++ m) a

inductive AllOf (tries : β → List Exchange → Bool → Prop) : List β → List Exchange → List β → Prop
  | none : AllOf tries [] [] []
  | taken {b bs cs l m} (accepted : tries b l true) (later : AllOf tries bs m cs) :
      AllOf tries (b :: bs) (l ++ m) (b :: cs)
  | passed {b bs cs l m} (refused : tries b l false) (later : AllOf tries bs m cs) :
      AllOf tries (b :: bs) (l ++ m) cs

variable {tries : β → List Exchange → Bool → Prop} {bs cs : List β} {l : List Exchange}

theorem FirstOf.first {b : β} {a : Bool} (found : FirstOf tries (b :: bs) l a) :
    ∃ m c, m ⊆ l ∧ tries b m c := by
  cases found with
  | hit accepted => exact ⟨l, true, List.Subset.refl l, accepted⟩
  | miss refused _ => exact ⟨_, false, List.subset_append_left _ _, refused⟩

theorem AllOf.each (all : AllOf tries bs l cs) {b : β} (mem : b ∈ bs) :
    ∃ m c, m ⊆ l ∧ tries b m c := by
  induction all with
  | none => cases mem
  | taken tried _ ih | passed tried _ ih =>
    rcases List.mem_cons.mp mem with rfl | mem
    · exact ⟨_, _, List.subset_append_left _ _, tried⟩
    · obtain ⟨m, c, within, tried⟩ := ih mem
      exact ⟨m, c, List.subset_append_of_subset_right _ within, tried⟩

theorem AllOf.subset (all : AllOf tries bs l cs) : cs ⊆ bs := by
  induction all with
  | none => exact List.Subset.refl _
  | taken _ _ ih => exact List.cons_subset_cons _ ih
  | passed _ _ ih => exact List.subset_cons_of_subset _ ih

end

def Draft.Matches (d : Draft) : List Rule → List Exchange → Bool → Prop :=
  FirstOf fun rule => FirstOf (Judged rule.matcher.compare (d.compared rule.name))
    rule.matcher.patterns

/-- A fan-out with its members, and a draft. -/
structure Roll where
  fanout : Ref .fanout
  members : List (Ref .plugin)
  draft : Ref .draft

namespace Roll

variable (S : Roll)

def named (h : Heap) : List Value := (h.items? (h.get S.draft).plugins).getD []

/-- Whether a plugin takes part in the work on a draft: if the draft lists names, a plugin with a name
among them; otherwise one without rules or with a rule that matches. -/
def Takes (h : Heap) (p : Plugin) (l : List Exchange) (a : Bool) : Prop :=
  if S.named h = [] then
    if p.rules.values = [] then l = [] ∧ a = true
    else (h.get S.draft).Matches p.rules.values l a
  else l = [] ∧ a = (p.name ≠ .none && h.among p.name (S.named h))

def Chooses (h : Heap) (k : Hook) (p : Plugin) (l : List Exchange) (a : Bool) : Prop :=
  if p.hasHandlers k then S.Takes h p l a else l = [] ∧ a = false

def Selects (h : Heap) (k : Hook) : List Exchange → List (Ref .plugin) → Prop :=
  AllOf (fun p => S.Chooses h k (h.get p)) S.members

structure Filed (w v : World) : Prop where
  fanout : v.heap.get S.fanout = w.heap.get S.fanout
  members : ∀ p ∈ S.members, v.heap.get p = w.heap.get p

structure Still (w v : World) : Prop extends S.Filed w v where
  draft : v.heap.get S.draft = w.heap.get S.draft
  named : S.named v.heap = S.named w.heap

end Roll

def Request.Compares (q : Request) : Prop :=
  ∃ compare text pattern, q = .call (.invoke compare [.str text, .str pattern])

/-- Meanwhile the fan-out and its members stay as they are, and during a comparison also the draft. -/
structure Roll.Calm (S : Roll) (x : Exchange) : Prop where
  filed : S.Filed x.before x.after
  still : x.request.Compares → S.Still x.before x.after

namespace Roll

variable {S : Roll} {α β : Type} {w u v : World} {l : List Exchange} {o : Except (Ref .failure) α}

theorem Filed.refl (w : World) : S.Filed w w := ⟨rfl, fun _ _ => rfl⟩

theorem Filed.trans (first : S.Filed u w) (next : S.Filed w v) : S.Filed u v where
  fanout := next.fanout.trans first.fanout
  members p mem := (next.members p mem).trans (first.members p mem)

theorem Still.refl (w : World) : S.Still w w := ⟨.refl w, rfl, rfl⟩

theorem Still.trans (first : S.Still u w) (next : S.Still w v) : S.Still u v where
  toFiled := first.toFiled.trans next.toFiled
  draft := next.draft.trans first.draft
  named := next.named.trans first.named

structure Keeps (S : Roll) (w v : World) : Prop where
  still : S.Still w v
  same : S.named w.heap ≠ [] → v = w

theorem Keeps.refl (w : World) : S.Keeps w w := ⟨.refl w, fun _ => rfl⟩

theorem Keeps.trans (first : S.Keeps u w) (next : S.Keeps w v) : S.Keeps u v where
  still := first.still.trans next.still
  same names := by
    have here := first.same names
    rw [next.same (by rwa [here]), here]

theorem takes_keeps (keeps : S.Keeps w v) (p : Plugin) : S.Takes v.heap p = S.Takes w.heap p := by
  -- Names are looked up by comparing objects, which is why nothing at all may change if there are any.
  by_cases names : S.named w.heap = []
  · funext l a
    simp only [Takes, keeps.still.named, keeps.still.draft, names, if_true]
  · rw [keeps.same names]

theorem chooses_keeps (keeps : S.Keeps w v) {k : Hook} {p : Ref .plugin} (mem : p ∈ S.members) :
    S.Chooses v.heap k (v.heap.get p) = S.Chooses w.heap k (w.heap.get p) := by
  funext l a
  rw [keeps.still.members p mem]
  simp only [Chooses, takes_keeps keeps]

structure Settles (S : Roll) (w : World) (l : List Exchange) (o : Except (Ref .failure) α)
    (v : World) (Q : List Exchange → α → Prop) : Prop where
  asks : ∀ x ∈ l, x.request.Compares
  keeps : S.Keeps w v
  ends : (∃ a, o = .ok a ∧ Q l a) ∨ ∃ x e, l.getLast? = some x ∧ x.outcome = .error e ∧ o = .error e

variable {Q : List Exchange → α → Prop} {R : List Exchange → β → Prop}

theorem settles_ok {a : α} (holds : Q [] a) : S.Settles w [] (.ok a) w Q :=
  ⟨by simp, .refl w, .inl ⟨a, rfl, holds⟩⟩

theorem Settles.mono {P : List Exchange → α → Prop} (settles : S.Settles w l o v Q)
    (weaker : ∀ l a, Q l a → P l a) : S.Settles w l o v P :=
  ⟨settles.asks, settles.keeps, settles.ends.imp_left fun ⟨a, is, holds⟩ => ⟨a, is, weaker l a holds⟩⟩

theorem settles_bind {x : Routine β} {f : β → Routine α} (unfolds : (x.bind f).Unfolds w l o v)
    (calm : ∀ x ∈ l, S.Calm x)
    (first : ∀ {m p u}, x.Unfolds w m p u → (∀ x ∈ m, S.Calm x) → S.Settles w m p u R)
    (next : ∀ {m b u r p v}, R m b → S.Keeps w u → (f b).Unfolds u r p v → (∀ x ∈ r, S.Calm x) →
      S.Settles u r p v fun r a => Q (m ++ r) a) : S.Settles w l o v Q := by
  rcases unfolds_bind.mp unfolds with ⟨b, m, r, u, rfl, here, later⟩ | ⟨e, rfl, here⟩
  · obtain ⟨before, after⟩ := List.forall_mem_append.mp calm
    have here := first here before
    obtain ⟨_, ⟨⟩, holds⟩ | ⟨_, _, _, _, ⟨⟩⟩ := here.ends
    have later := next holds here.keeps later after
    refine ⟨List.forall_mem_append.mpr ⟨here.asks, later.asks⟩, here.keeps.trans later.keeps, ?_⟩
    · rcases later.ends with ends | ⟨x, e, last, raised, ends⟩
      · exact .inl ends
      · refine .inr ⟨x, e, ?_, raised, ends⟩
        rw [List.getLast?_append, last]
        rfl
  · have here := first here calm
    obtain ⟨_, ⟨⟩, _⟩ | ⟨x, e, last, raised, ⟨⟩⟩ := here.ends
    exact ⟨here.asks, here.keeps, .inr ⟨x, _, last, raised, rfl⟩⟩

theorem settles_anyM {tries : β → List Exchange → Bool → Prop} {f : β → Routine Bool} {bs : List β}
    {o : Except (Ref .failure) Bool} (unfolds : (bs.anyM f).Unfolds w l o v)
    (calm : ∀ x ∈ l, S.Calm x) (each : ∀ b ∈ bs, ∀ {u l o v}, S.Keeps w u →
      (f b).Unfolds u l o v → (∀ x ∈ l, S.Calm x) → S.Settles u l o v (tries b)) :
    S.Settles w l o v (FirstOf tries bs) := by
  induction bs generalizing w l o v with
  | nil =>
    obtain ⟨rfl, rfl, rfl⟩ := unfolds_done.mp unfolds
    exact settles_ok .none
  | cons b bs ih =>
    rw [List.anyM_cons] at unfolds
    refine settles_bind unfolds calm (each b List.mem_cons_self (.refl w))
      fun {_ a} _ _ _ _ answer keeps later calm => ?_
    cases a with
    | true =>
      obtain ⟨rfl, rfl, rfl⟩ := unfolds_done.mp later
      exact settles_ok (by simpa using .hit answer)
    | false =>
      refine (ih later calm fun c mem _ _ _ _ after =>
        each c (List.mem_cons_of_mem _ mem) (keeps.trans after)).mono fun r a rest => ?_
      exact .miss answer rest

/-! ## One plugin -/

section

variable {o : Except (Ref .failure) Bool} {compare value : Value} {pattern : String}

theorem settles_asked {text : String} (foreign : compare ≠ .library .globMatch)
    (unnamed : S.named w.heap = [])
    (unfolds : ((callValue compare [.str text, .str pattern]).bind fun a =>
      (liftM (truthy a) : Routine Bool)).Unfolds w l o v) (calm : ∀ x ∈ l, S.Calm x) :
    S.Settles w l o v (Judged compare (.str text) pattern) := by
  have alone {x : Exchange} (is : x.request = .call (.invoke compare [.str text, .str pattern])) :
      ∀ y ∈ [x], y.request.Compares := by
    intro y mem
    exact ⟨compare, text, pattern, List.mem_singleton.mp mem ▸ is⟩
  rcases unfolds_bind.mp unfolds with ⟨a, m, r, u, rfl, asked, told⟩ | ⟨e, rfl, asked⟩
  · obtain rfl := unfolds_perform.mp asked
    obtain ⟨rfl, ends⟩ := unfolds_edit.mp told
    cases ends
    have still := (calm _ (List.mem_append_left _ List.mem_cons_self)).still
      ⟨compare, text, pattern, rfl⟩
    exact ⟨alone rfl, ⟨still, absurd unnamed⟩, .inl ⟨_, rfl, .asked foreign rfl rfl⟩⟩
  · obtain rfl := unfolds_perform.mp asked
    have still := (calm _ List.mem_cons_self).still ⟨compare, text, pattern, rfl⟩
    exact ⟨alone rfl, ⟨still, absurd unnamed⟩, .inr ⟨_, e, rfl, rfl, rfl⟩⟩

theorem settles_compareWith (text : ∃ s, value = .str s) (unnamed : S.named w.heap = [])
    (unfolds : (Matcher.compareWith compare value pattern).Unfolds w l o v)
    (calm : ∀ x ∈ l, S.Calm x) : S.Settles w l o v (Judged compare value pattern) := by
  obtain ⟨s, rfl⟩ := text
  by_cases own : compare = .library .globMatch
  · subst own
    obtain ⟨rfl, ends⟩ :=
      unfolds_edit (e := (globMatch (.str s) (.str pattern)).run) |>.mp unfolds
    cases ends
    exact settles_ok (.glob rfl rfl)
  · unfold Matcher.compareWith at unfolds
    split at unfolds
    · contradiction
    · exact settles_asked own unnamed unfolds calm

theorem settles_rule {rule : Rule} (plain : (w.heap.get S.draft).Plain)
    (unnamed : S.named w.heap = []) (unfolds : Unfolds (do
      rule.matcher.accepts (← Plugin.ruleValue (← Edit.read S.draft) rule.name)) w l o v)
    (calm : ∀ x ∈ l, S.Calm x) : S.Settles w l o v
      (FirstOf (Judged rule.matcher.compare ((w.heap.get S.draft).compared rule.name))
        rule.matcher.patterns) := by
  have read_draft : (Edit.read S.draft).run w = (.ok (w.heap.get S.draft), w) := rfl
  have unfolds := (unfolds_doing read_draft).mp unfolds
  have unfolds := (unfolds_doing (Draft.run_ruleValue plain rule.name w)).mp unfolds
  have text := Draft.compared_text plain rule.name
  have given : (w.heap.get S.draft).compared rule.name ≠ .none := by
    obtain ⟨s, is⟩ := text
    simp [is]
  unfold Matcher.accepts at unfolds
  rw [if_neg given] at unfolds
  refine settles_anyM unfolds calm fun q _ {u} {_} {_} {_} keeps asked calm => ?_
  exact settles_compareWith text (keeps.still.named.trans unnamed) asked calm

theorem truthy_plugins (plain : (w.heap.get S.draft).Plain) :
    w.heap.truthy (w.heap.get S.draft).plugins = !(S.named w.heap).isEmpty := by
  obtain ⟨r, list⟩ := plain.plugins
  unfold named
  rw [list]
  show decide ((w.heap.get r).length ≠ 0) = !(w.heap.get r).isEmpty
  cases w.heap.get r <;> simp

theorem run_containsItem (plain : (w.heap.get S.draft).Plain) (item : Value) :
    (containsItem (w.heap.get S.draft).plugins item).run w =
      (.ok (w.heap.among item (S.named w.heap)), w) := by
  obtain ⟨r, list⟩ := plain.plugins
  unfold named
  rw [list]
  rfl

theorem settles_takesPart {p : Ref .plugin} (plain : (w.heap.get S.draft).Plain)
    (unfolds : (Plugin.takesPart p S.draft).Unfolds w l o v) (calm : ∀ x ∈ l, S.Calm x) :
    S.Settles w l o v (S.Takes w.heap (w.heap.get p)) := by
  have read_plugin : (Edit.read p).run w = (.ok (w.heap.get p), w) := rfl
  have read_draft : (Edit.read S.draft).run w = (.ok (w.heap.get S.draft), w) := rfl
  have asked : (truthy (w.heap.get S.draft).plugins).run w =
      (.ok (!(S.named w.heap).isEmpty), w) := by
    rw [← truthy_plugins plain]
    rfl
  have unfolds := (unfolds_doing read_draft).mp ((unfolds_doing read_plugin).mp unfolds)
  have unfolds := (unfolds_doing asked).mp unfolds
  have sized : (w.heap.get p).rules.size = 0 ↔ (w.heap.get p).rules.values = [] := by
    simp [Assoc.values, Assoc.size]
  unfold Takes
  by_cases names : S.named w.heap = []
  · simp only [names, List.isEmpty_nil, Bool.not_true, Bool.false_eq_true, if_false, if_true, sized]
      at unfolds ⊢
    by_cases free : (w.heap.get p).rules.values = []
    · simp only [if_pos free]
      obtain ⟨rfl, rfl, rfl⟩ := unfolds_done.mp (if_pos free ▸ unfolds)
      exact settles_ok ⟨rfl, rfl⟩
    · simp only [if_neg free]
      refine settles_anyM (if_neg free ▸ unfolds) calm fun rule _ {u} _ _ _ keeps asked calm => ?_
      have draft := keeps.still.draft
      rw [← draft] at plain ⊢
      exact settles_rule plain (keeps.still.named.trans names) asked calm
  · rw [List.isEmpty_eq_false_iff.mpr names] at unfolds
    simp only [if_neg names]
    by_cases unnamed : (w.heap.get p).name = .none
    · obtain ⟨rfl, rfl, rfl⟩ := unfolds_done.mp (if_pos unnamed ▸ unfolds)
      exact settles_ok ⟨rfl, by simp [unnamed]⟩
    · obtain ⟨rfl, ends⟩ := unfolds_edit.mp (if_neg unnamed ▸ unfolds)
      cases ends.symm.trans (Edit.after_ok (run_containsItem plain (w.heap.get p).name))
      exact settles_ok ⟨rfl, by simp [unnamed]⟩

end

/-! ## All members -/

/-- A fan-out for a hook with its members, and a draft as drafts are. -/
structure Stands (S : Roll) (k : Hook) (w : World) : Prop where
  label : Hook.ofValue? (w.heap.get S.fanout).hook = some k
  members : (w.heap.get S.fanout).plugins = S.members.map (.obj .plugin)
  plain : (w.heap.get S.draft).Plain

section

variable {k : Hook}

theorem Stands.still (stands : S.Stands k w) (still : S.Still w v) : S.Stands k v := by
  refine ⟨?_, ?_, ?_⟩
  · rw [still.fanout]
    exact stands.label
  · rw [still.fanout]
    exact stands.members
  · rw [still.draft]
    exact stands.plain

theorem settles_selects {o : Except (Ref .failure) Bool} {hook : Value} {p : Ref .plugin}
    (parsed : Hook.ofValue? hook = some k) (plain : (w.heap.get S.draft).Plain)
    (unfolds : (Fanout.selects hook (.obj .draft S.draft) (.obj .plugin p)).Unfolds w l o v)
    (calm : ∀ x ∈ l, S.Calm x) : S.Settles w l o v (S.Chooses w.heap k (w.heap.get p)) := by
  have read_plugin : (Edit.read p).run w = (.ok (w.heap.get p), w) := rfl
  have known : (Hook.parse hook).run w = (.ok k, w) := (reads_hook hook).found parsed
  have draft : (asDraft (.obj .draft S.draft)).run w = (.ok S.draft, w) := rfl
  have unfolds := (unfolds_doing known).mp ((unfolds_doing read_plugin).mp unfolds)
  unfold Chooses
  by_cases handles : (w.heap.get p).hasHandlers k
  · simp only [if_pos handles] at unfolds ⊢
    exact settles_takesPart plain ((unfolds_doing draft).mp unfolds) calm
  · simp only [if_neg handles] at unfolds ⊢
    obtain ⟨rfl, rfl, rfl⟩ := unfolds_done.mp unfolds
    exact settles_ok ⟨rfl, rfl⟩

theorem settles_filterAuxM {tries : β → List Exchange → Bool → Prop} {f : Value → Routine Bool}
    {bs : List β} {g : β → Value} {acc : List Value} {o : Except (Ref .failure) (List Value)}
    (unfolds : (List.filterAuxM f (bs.map g) acc).Unfolds w l o v) (calm : ∀ x ∈ l, S.Calm x)
    (each : ∀ b ∈ bs, ∀ {u l o v}, S.Keeps w u → (f (g b)).Unfolds u l o v →
      (∀ x ∈ l, S.Calm x) → S.Settles u l o v (tries b)) :
    S.Settles w l o v fun l cs => ∃ ds, AllOf tries bs l ds ∧ cs = (ds.map g).reverse ++ acc := by
  -- `acc` holds what has been selected so far, the last first.
  induction bs generalizing w l o v acc with
  | nil =>
    obtain ⟨rfl, rfl, rfl⟩ := unfolds_done.mp unfolds
    exact settles_ok ⟨[], .none, rfl⟩
  | cons b bs ih =>
    refine settles_bind unfolds calm (each b List.mem_cons_self (.refl w))
      fun {_ a} _ _ _ _ answer keeps later calm => ?_
    refine (ih later calm fun c mem _ _ _ _ after =>
      each c (List.mem_cons_of_mem _ mem) (keeps.trans after)).mono fun r cs found => ?_
    obtain ⟨ds, rest, rfl⟩ := found
    cases a with
    | true => exact ⟨b :: ds, .taken answer rest, by simp⟩
    | false => exact ⟨ds, .passed answer rest, by simp⟩

theorem settles_filterM {tries : β → List Exchange → Bool → Prop} {f : Value → Routine Bool}
    {bs : List β} {g : β → Value} {o : Except (Ref .failure) (List Value)}
    (unfolds : ((bs.map g).filterM f).Unfolds w l o v) (calm : ∀ x ∈ l, S.Calm x)
    (each : ∀ b ∈ bs, ∀ {u l o v}, S.Keeps w u → (f (g b)).Unfolds u l o v →
      (∀ x ∈ l, S.Calm x) → S.Settles u l o v (tries b)) :
    S.Settles w l o v fun l cs => ∃ ds, AllOf tries bs l ds ∧ cs = ds.map g := by
  refine settles_bind unfolds calm (fun filtered calm => settles_filterAuxM filtered calm each)
    fun {m} _ _ _ _ _ found _ later _ => ?_
  obtain ⟨ds, all, rfl⟩ := found
  obtain ⟨rfl, rfl, rfl⟩ := unfolds_done.mp later
  exact settles_ok ⟨ds, by rwa [List.append_nil], by simp⟩

/-- A selection asks only for comparisons. It goes by the draft and the plugins as they are before. -/
theorem settles_selected {o : Except (Ref .failure) (List (Ref .plugin))} (stands : S.Stands k w)
    (unfolds : (Fanout.selected S.fanout (.obj .draft S.draft)).Unfolds w l o v)
    (calm : ∀ x ∈ l, S.Calm x) : S.Settles w l o v (S.Selects w.heap k) := by
  have read_fanout : (Edit.read S.fanout).run w = (.ok (w.heap.get S.fanout), w) := rfl
  have unfolds := (unfolds_doing read_fanout).mp unfolds
  rw [stands.members] at unfolds
  refine settles_bind (R := fun l cs => ∃ ps, AllOf (fun p => S.Chooses w.heap k (w.heap.get p))
      S.members l ps ∧ cs = ps.map (.obj .plugin)) unfolds calm
    (fun filtered calm => settles_filterM filtered calm fun p mem _ _ _ _ keeps asked calm => ?_)
    fun {m} _ _ _ _ _ found _ later _ => ?_
  · rw [← chooses_keeps keeps mem]
    exact settles_selects stands.label (stands.still keeps.still).plain asked calm
  · obtain ⟨ps, selects, rfl⟩ := found
    obtain ⟨rfl, rfl, rfl⟩ := unfolds_done.mp later
    apply settles_ok
    rw [List.append_nil, List.filterMap_map]
    show S.Selects w.heap k m (ps.filterMap some)
    rwa [List.filterMap_some]

end

end Roll
end AsyncImport
