import AsyncImport.Proofs.HookKeys
import AsyncImport.Proofs.Validation

/-!
# Settings and their tables

What a table of settings comes to: settings that say the same, or a validation fault. Settings can be written
as a table again, and equal settings come of that.
-/

namespace AsyncImport

open Edit

variable {h g : Heap} {w v : World} {x : Value} {c : Dict} {p : Hook → Option (List String)}

namespace Settings

/-! ## Ignore tables -/

structure Lists (h : Heap) (c : Dict) (p : Hook → Option (List String)) : Prop where
  distinct : c.keys.Nodup
  named : ∀ κ y, c.get? κ = some y → ∃ k l ts, κ = .text k.text ∧ y = (.str k.text, .obj .list l) ∧
    h.Live l ∧ h.get l = ts.map .str ∧ p k = some ts
  all : ∀ k, c.get? (.text k.text) = none → p k = none

def lastNaming (h : Heap) (es : List (Value × Value)) (k : Hook) : Option (List String) :=
  (naming es k).getLast?.bind fun e => h.patterns? e.2

theorem Lists.mono (lists : Lists h c p) (grown : h.Grown g) : Lists g c p where
  distinct := lists.distinct
  named κ y known := by
    obtain ⟨k, l, ts, spelt, is, live, listed, holds⟩ := lists.named κ y known
    exact ⟨k, l, ts, spelt, is, grown.live l live, (grown.get l live).trans listed, holds⟩
  all := lists.all

theorem Lists.put (lists : Lists h c p) {l : Ref .list} {ts : List String} (live : h.Live l)
    (listed : h.get l = ts.map .str) (k : Hook) :
    Lists h (c.put (.text k.text) (.str k.text) (.obj .list l)) (Function.update p k (some ts)) where
  distinct := Assoc.nodup_insert lists.distinct _ _
  named κ y known := by
    unfold Dict.put at known
    rw [Assoc.get?_insert] at known
    split at known
    · next same =>
      cases known
      refine ⟨k, l, ts, same, ?_, live, listed, Function.update_self _ _ _⟩
      cases old : c.get? (.text k.text) with
      | none => rfl
      | some z =>
        obtain ⟨j, _, _, spelt, rfl, -⟩ := lists.named _ z old
        obtain rfl := text_injective spelt
        rfl
    · next other =>
      obtain ⟨j, m, us, rfl, is, live, listed, holds⟩ := lists.named κ y known
      refine ⟨j, m, us, rfl, is, live, listed, ?_⟩
      rw [Function.update_of_ne (fun same => other (by rw [same]))]
      exact holds
  all j none := by
    unfold Dict.put at none
    rw [Assoc.get?_insert] at none
    split at none
    · cases none
    · next other =>
      rw [Function.update_of_ne (fun same => other (by rw [same]))]
      exact lists.all j none

theorem lists_empty (h : Heap) : Lists g {} (lastNaming h []) where
  distinct := .nil
  named κ y known := by cases known
  all k _ := rfl

theorem lastNaming_snoc {es : List (Value × Value)} {e : Value × Value} {k : Hook}
    (denoted : Hook.ofValue? e.1 = some k) :
    lastNaming h (es ++ [e]) = Function.update (lastNaming h es) k (h.patterns? e.2) := by
  funext j
  unfold lastNaming naming
  rw [List.filter_append]
  by_cases same : j = k
  · subst same
    rw [List.filter_cons_of_pos (by simpa using denoted), List.filter_nil, List.getLast?_concat,
      Function.update_self, Option.bind_some]
  · rw [List.filter_cons_of_neg (by simpa [denoted] using Ne.symm same), List.filter_nil, List.append_nil,
      Function.update_of_ne same]

def Names (h : Heap) (e : Value × Value) : Prop :=
  (Hook.ofValue? e.1).isSome ∧ (h.patterns? e.2).isSome

def addIgnored (c : Dict) (e : Value × Value) : Edit Dict := do
  let (h, patterns) ← tryCatch (ignoredEntry e.1 e.2) fun
    | .registration cause => throw (.validation (.ignored cause))
    | f => throw f
  return c.put (Key.text h.text) (.str h.text) patterns

theorem addIgnored_takes {e : Value × Value} {k : Hook} {ts : List String}
    (denoted : Hook.ofValue? e.1 = some k) (read : w.heap.patterns? e.2 = some ts) (c : Dict) :
    addIgnored c e w = (.ok (c.put (.text k.text) (.str k.text) (.obj .list (w.heap.fresh .list))),
      w.alloc .list (ts.map .str)) := by
  have stage : (Hook.parse e.1).run w = (.ok k, w) := (reads_hook e.1).found denoted
  have patterns : patternList e.2 w = (.ok ts, w) := (reads_patterns e.2).found read
  unfold addIgnored ignoredEntry
  simp only [run_bind, run_tryCatch, run_lift, stage, patterns, Quiet.run_newList, run_pure]

theorem addIgnored_refuses {e : Value × Value} (refuses : ¬ Names w.heap e)
    (told : ¬ w.heap.Mute e.1 ∧ ¬ w.heap.Mute e.2) (c : Dict) :
    ∃ cause, addIgnored c e w = (.error (.validation cause), w) := by
  unfold addIgnored ignoredEntry
  cases denoted : Hook.ofValue? e.1 with
  | none =>
    obtain ⟨cause, stage⟩ := parse_refuses denoted told.1
    exact ⟨.ignored cause, by simp only [run_bind, run_tryCatch, run_lift, stage, run_throw]⟩
  | some k =>
    have stage : (Hook.parse e.1).run w = (.ok k, w) := (reads_hook e.1).found denoted
    have unread : w.heap.patterns? e.2 = none := by
      simpa [Names, denoted] using refuses
    obtain ⟨cause, patterns⟩ := patternList_refuses unread told.2
    exact ⟨.ignored cause, by simp only [run_bind, run_tryCatch, run_lift, stage, patterns, run_throw]⟩

theorem entries_judged {es before : List (Value × Value)} (lists : Lists w.heap c (lastNaming h before))
    (grown : h.Grown w.heap) (there : ∀ e ∈ es, h.Has e.2)
    (told : ∀ e ∈ es, ¬ w.heap.Mute e.1 ∧ ¬ w.heap.Mute e.2) :
    (∀ e ∈ es, Names h e) ∧ (∃ d v, es.foldlM addIgnored c w = (.ok d, v) ∧ h.Grown v.heap ∧
        Lists v.heap d (lastNaming h (before ++ es))) ∨
      ¬ (∀ e ∈ es, Names h e) ∧ ∃ cause v, es.foldlM addIgnored c w = (.error (.validation cause), v) := by
  -- What was taken over before is listed for the entries before; the heap has only grown since.
  induction es generalizing before c w with
  | nil => exact .inl ⟨by simp, c, w, rfl, grown, by rwa [List.append_nil]⟩
  | cons e es ih =>
    have same : w.heap.patterns? e.2 = h.patterns? e.2 := by
      unfold Heap.patterns?
      split
      · rfl
      · rw [grown.items?_eq (there e List.mem_cons_self)]
    rw [List.foldlM_cons]
    by_cases names : Names h e
    · obtain ⟨k, denoted⟩ := Option.isSome_iff_exists.mp names.1
      obtain ⟨ts, read⟩ := Option.isSome_iff_exists.mp names.2
      have first := addIgnored_takes denoted (same.trans read) c
      have listed : (w.alloc .list (ts.map .str)).heap.get (w.heap.fresh .list) = ts.map .str :=
        Heap.get_alloc_fresh _ _
      have more : w.heap.Grown (w.alloc .list (ts.map .str)).heap := .alloc _ (k := .list) _ (by decide)
      have lists := (lists.mono more).put (Heap.live_fresh_alloc _ _) listed k
      rw [← read, ← lastNaming_snoc denoted] at lists
      have rest := ih lists (grown.trans more) (fun f mem => there f (List.mem_cons_of_mem _ mem))
        fun f mem => (told f (List.mem_cons_of_mem _ mem)).imp (mt Heap.mute_of_alloc) (mt Heap.mute_of_alloc)
      rw [List.append_assoc, List.singleton_append] at rest
      simpa only [List.forall_mem_cons, names, true_and, run_bind, first] using rest
    · obtain ⟨cause, first⟩ := addIgnored_refuses (w := w) (e := e)
        (by simpa only [Names, same] using names) (told e List.mem_cons_self) c
      refine .inr ⟨fun all => names (all e List.mem_cons_self), cause, w, ?_⟩
      rw [run_bind, first]

/-! ## What settings say -/

structure Terms where
  delimiter : String
  level : String
  format : String
  ignored : Hook → Option (List String)

def textUnder (c : Dict) (t default : String) : String :=
  ((c.find? (.text t)).bind Value.str?).getD default

def ignoreEntries (h : Heap) (c : Dict) : List (Value × Value) :=
  (((c.find? (.text "ignore")).bind h.dict?).map Dict.items).getD []

def terms (h : Heap) (c : Dict) : Terms where
  delimiter := textUnder c "plugin_delimiter" "!"
  level := textUnder c "log_level" "INFO"
  format := textUnder c "log_format" "console"
  ignored := lastNaming h (ignoreEntries h c)

structure Terms.Proper (z : Terms) : Prop where
  delimiter : z.delimiter ≠ ""
  level : z.level ∈ ["DEBUG", "INFO", "WARNING", "ERROR"]
  format : z.format ∈ ["console", "json"]

end Settings

open Settings

structure Heap.Sets (h : Heap) (s : Ref .settings) (z : Terms) : Prop where
  live : h.Live s
  delimiter : (h.get s).pluginDelimiter = .str z.delimiter
  level : (h.get s).logLevel = .str z.level
  format : (h.get s).logFormat = .str z.format
  ignore : ∃ r, (h.get s).ignore = .obj .dict r ∧ h.Live r ∧ Lists h (h.get r) z.ignored

theorem Heap.Sets.mono {s : Ref .settings} {z : Terms} (sets : h.Sets s z) (grown : h.Grown g) : g.Sets s z := by
  have same := grown.get s sets.live
  obtain ⟨r, is, live, lists⟩ := sets.ignore
  exact {
    live := grown.live s sets.live
    delimiter := by rw [same, sets.delimiter]
    level := by rw [same, sets.level]
    format := by rw [same, sets.format]
    ignore := ⟨r, by rw [same, is], grown.live r live, by
      rw [grown.get r live]
      exact lists.mono grown⟩ }

namespace Settings

/-- A table as a host gives it: what its ignore table holds is there, and what can be refused of it can be
told. -/
structure Given (h : Heap) (c : Dict) : Prop where
  filed : c.Filed h
  told : ∀ e ∈ c.items, ¬ h.Mute e.1
  there : ∀ r : Ref .dict, (.str "ignore", .obj .dict r) ∈ c.items → ∀ e ∈ (h.get r).items, h.Has e.2
  ignored : ∀ r : Ref .dict, (.str "ignore", .obj .dict r) ∈ c.items → ¬ h.Mute (.obj .dict r)

/-- Every key of a table is known and has a value that is allowed. -/
def Accepts (h : Heap) (c : Dict) : Prop := ∀ e ∈ c.items, Allows h e.1 e.2

theorem dict?_eq_some {d : Dict} (is : h.dict? x = some d) : ∃ r, x = .obj .dict r := by
  cases x with
  | obj k r =>
    cases k <;> cases is
    exact ⟨r, rfl⟩
  | _ => cases is

theorem find?_text (filed : c.Filed h) {t : String} : c.find? (.text t) = some x ↔ (.str t, x) ∈ c.items := by
  rw [← filed.under?, Heap.under?_eq_some filed.nodup]
  constructor
  · rintro ⟨e, mem, spelt, rfl⟩
    rwa [← Heap.key?_eq_text.mp spelt]
  · exact fun mem => ⟨_, mem, rfl, rfl⟩

theorem mem_ignoreEntries (filed : c.Filed h) {e : Value × Value} : e ∈ ignoreEntries h c ↔
    ∃ r : Ref .dict, (.str "ignore", .obj .dict r) ∈ c.items ∧ e ∈ (h.get r).items := by
  unfold ignoreEntries
  constructor
  · intro mem
    cases found : c.find? (.text "ignore") with
    | none => simp [found] at mem
    | some x =>
      rw [found, Option.bind_some] at mem
      cases is : h.dict? x with
      | none => simp [is] at mem
      | some d =>
        obtain ⟨r, rfl⟩ := dict?_eq_some is
        cases is
        exact ⟨r, (find?_text filed).mp found, mem⟩
  · rintro ⟨r, held, mem⟩
    rw [(find?_text filed).mpr held]
    exact mem

namespace Accepts

variable (accepts : Accepts h c) (filed : c.Filed h)

include accepts filed

theorem text {t default : String} {Q : String → Prop} (allowed : ∀ x, Allows h (.str t) x → ∃ u, x = .str u ∧ Q u)
    (fits : Q default) : Q (textUnder c t default) ∧
      (c.find? (.text t)).getD (.str default) = .str (textUnder c t default) := by
  unfold textUnder
  cases found : c.find? (.text t) with
  | none => exact ⟨fits, rfl⟩
  | some x =>
    obtain ⟨u, rfl, proper⟩ := allowed x (accepts _ ((find?_text filed).mp found))
    exact ⟨proper, rfl⟩

theorem delimiter : (terms h c).delimiter ≠ "" ∧
    (c.find? (.text "plugin_delimiter")).getD (.str "!") = .str (terms h c).delimiter :=
  accepts.text (Q := fun u => u ≠ "") filed (fun _ allows => allows) (by decide)

theorem level : (terms h c).level ∈ ["DEBUG", "INFO", "WARNING", "ERROR"] ∧
    (c.find? (.text "log_level")).getD (.str "INFO") = .str (terms h c).level :=
  accepts.text (Q := fun u => u ∈ ["DEBUG", "INFO", "WARNING", "ERROR"]) filed
    (fun _ ⟨u, mem, is⟩ => ⟨u, is, mem⟩) (by decide)

theorem format : (terms h c).format ∈ ["console", "json"] ∧
    (c.find? (.text "log_format")).getD (.str "console") = .str (terms h c).format :=
  accepts.text (Q := fun u => u ∈ ["console", "json"]) filed (fun _ ⟨u, mem, is⟩ => ⟨u, is, mem⟩) (by decide)

theorem proper : (terms h c).Proper where
  delimiter := (accepts.delimiter filed).1
  level := (accepts.level filed).1
  format := (accepts.format filed).1

end Accepts

theorem ignored_judged (given : Given w.heap c) (declares : ∀ e ∈ c.items, Declares w.heap e.1 e.2) :
    Accepts w.heap c ∧ (∃ r v, ignored ((c.find? (.text "ignore")).getD .none) w = (.ok (.obj .dict r), v) ∧
        w.heap.Grown v.heap ∧ v.heap.Live r ∧ Lists v.heap (v.heap.get r) (terms w.heap c).ignored) ∨
      ¬ Accepts w.heap c ∧ ∃ cause v, ignored ((c.find? (.text "ignore")).getD .none) w =
        (.error (.validation cause), v) := by
  have accepts : Accepts w.heap c ↔ ∀ e ∈ ignoreEntries w.heap c, Names w.heap e := by
    constructor
    · intro accepts e mem
      obtain ⟨r, held, mem⟩ := (mem_ignoreEntries given.filed).mp mem
      exact (allows_iff.mp (accepts _ held)).2 rfl r rfl e mem
    · refine fun names f mem => allows_iff.mpr ⟨declares f mem, ?_⟩
      rintro label r is e held
      obtain ⟨l, x⟩ := f
      obtain rfl : l = .str "ignore" := label
      obtain rfl : x = .obj .dict r := is
      exact names e ((mem_ignoreEntries given.filed).mpr ⟨r, mem, held⟩)
  have there : ∀ e ∈ ignoreEntries w.heap c, w.heap.Has e.2 := by
    intro e mem
    obtain ⟨r, held, mem⟩ := (mem_ignoreEntries given.filed).mp mem
    exact given.there r held e mem
  have told : ∀ e ∈ ignoreEntries w.heap c, ¬ w.heap.Mute e.1 ∧ ¬ w.heap.Mute e.2 := by
    intro e mem
    obtain ⟨r, held, mem⟩ := (mem_ignoreEntries given.filed).mp mem
    have within := given.ignored r held
    refine ⟨fun mute => within (.part rfl ?_ mute), fun mute => within (.part rfl ?_ mute)⟩
    · exact List.mem_append_left _ (List.mem_map_of_mem mem)
    · exact List.mem_append_right _ (List.mem_map_of_mem mem)
  have run : ignored ((c.find? (.text "ignore")).getD .none) w =
      ((ignoreEntries w.heap c).foldlM addIgnored {} >>= fun d => newDict d) w := by
    unfold ignored ignoreEntries
    rw [run_bind, run_lift, Quiet.run_heap]
    dsimp only
    cases c.find? (.text "ignore") with
    | none => rfl
    | some x =>
      rw [Option.getD_some, Option.bind_some]
      cases w.heap.dict? x <;> rfl
  rw [accepts, run, run_bind]
  rcases entries_judged (lists_empty _) (.refl _) there told with
    ⟨all, d, v, folded, grown, lists⟩ | ⟨bad, cause, v, folded⟩
  · rw [folded]
    have more : v.heap.Grown (v.alloc .dict d).heap := .alloc _ (k := .dict) d (by decide)
    have kept : (v.alloc .dict d).heap.get (v.heap.fresh .dict) = d := Heap.get_alloc_fresh _ _
    refine .inl ⟨all, v.heap.fresh .dict, v.alloc .dict d, rfl, grown.trans more, Heap.live_fresh_alloc _ _, ?_⟩
    rw [kept]
    exact lists.mono more
  · rw [folded]
    exact .inr ⟨bad, cause, v, rfl⟩

/-- A table becomes settings that say the same if it is accepted, and is invalid otherwise. -/
theorem ofTable_judged {r : Ref .dict} (given : Given w.heap (w.heap.get r)) :
    Accepts w.heap (w.heap.get r) ∧ (∃ s v, ofTable (.obj .dict r) w = (.ok s, v) ∧ w.heap.Grown v.heap ∧
        ¬ w.heap.Live s ∧ v.heap.Sets s (terms w.heap (w.heap.get r))) ∨
      ¬ Accepts w.heap (w.heap.get r) ∧ ∃ cause v, ofTable (.obj .dict r) w =
        (.error (.validation cause), v) := by
  let c := w.heap.get r
  unfold ofTable
  rw [run_bind, run_lift, Draft.run_dictOf]
  dsimp only
  rw [run_bind]
  rcases check_judges given.filed given.told with ⟨declares, checked⟩ | ⟨bad, cause, checked⟩
  · rw [checked]
    dsimp only
    rw [run_bind]
    rcases ignored_judged given declares with ⟨accepts, d, v, run, grown, live, lists⟩ | ⟨bad, cause, v, run⟩
    · rw [run]
      let cell : AsyncImport.Settings := {
        pluginDelimiter := (c.find? (.text "plugin_delimiter")).getD (.str "!")
        logLevel := (c.find? (.text "log_level")).getD (.str "INFO")
        logFormat := (c.find? (.text "log_format")).getD (.str "console")
        ignore := .obj .dict d }
      have more : v.heap.Grown (v.alloc .settings cell).heap := .alloc _ (k := .settings) cell (by decide)
      have made : (v.alloc .settings cell).heap.get (v.heap.fresh .settings) = cell := Heap.get_alloc_fresh _ _
      refine .inl ⟨accepts, v.heap.fresh .settings, v.alloc .settings cell, rfl, grown.trans more,
        fun old => Heap.not_live_fresh _ _ (grown.live _ old), ?_⟩
      exact {
        live := Heap.live_fresh_alloc _ _
        delimiter := by rw [made, ← (accepts.delimiter given.filed).2]
        level := by rw [made, ← (accepts.level given.filed).2]
        format := by rw [made, ← (accepts.format given.filed).2]
        ignore := by
          refine ⟨d, by rw [made], more.live d live, ?_⟩
          rw [more.get d live]
          exact lists.mono more }
    · rw [run]
      exact .inr ⟨bad, cause, v, rfl⟩
  · rw [checked]
    exact .inr ⟨fun accepts => bad fun e mem => (allows_iff.mp (accepts e mem)).1, cause, w, rfl⟩

/-! ## Settings as a table -/

def Copies (h g : Heap) (e f : Key × Value × Value) : Prop :=
  f.1 = e.1 ∧ f.2.1 = e.2.1 ∧ ∃ l m : Ref .list, e.2.2 = .obj .list l ∧ f.2.2 = .obj .list m ∧
    g.Live m ∧ g.get m = h.get l

theorem copies_mapM {es : List (Key × Value × Value)}
    (listed : ∀ e ∈ es, ∃ l : Ref .list, e.2.2 = .obj .list l ∧ h.Live l) (grown : h.Grown w.heap) :
    ∃ fs v, (es.mapM fun e => do return (e.1, e.2.1, ← newList (← items e.2.2)) : Edit _) w = (.ok fs, v) ∧
      h.Grown v.heap ∧ w.heap.Grown v.heap ∧ List.Forall₂ (Copies h v.heap) es fs := by
  induction es generalizing w with
  | nil => exact ⟨[], w, rfl, grown, .refl _, .nil⟩
  | cons e es ih =>
    obtain ⟨l, is, live⟩ := listed e List.mem_cons_self
    let m := w.heap.fresh .list
    let u := w.alloc .list (h.get l)
    have more : w.heap.Grown u.heap := .alloc _ (k := .list) _ (by decide)
    obtain ⟨fs, v, rest, later, since, copies⟩ := ih (fun f mem => listed f (List.mem_cons_of_mem _ mem))
      (grown.trans more)
    have alive : u.heap.Live m := Heap.live_fresh_alloc _ _
    have copied : v.heap.get m = h.get l := (since.get m alive).trans (Heap.get_alloc_fresh _ _)
    refine ⟨(e.1, e.2.1, .obj .list m) :: fs, v, ?_, later, more.trans since,
      .cons ⟨rfl, rfl, l, m, is, rfl, since.live m alive, copied⟩ copies⟩
    rw [List.mapM_cons]
    simp only [run_bind, run_lift, is, Draft.run_itemsOf, Quiet.run_newList, run_pure, grown.get l live]
    rw [rest]

theorem keys_copies {es fs : List (Key × Value × Value)} (copies : List.Forall₂ (Copies h g) es fs) :
    fs.map Prod.fst = es.map Prod.fst := by
  induction copies with
  | nil => rfl
  | cons first _ ih => rw [List.map_cons, List.map_cons, first.1, ih]

theorem get?_copies {es fs : List (Key × Value × Value)} (copies : List.Forall₂ (Copies h g) es fs)
    (κ : Key) : Assoc.get? ⟨es⟩ κ = none ∧ Assoc.get? ⟨fs⟩ κ = none ∨
      ∃ y z, Assoc.get? ⟨es⟩ κ = some y ∧ Assoc.get? ⟨fs⟩ κ = some z ∧ Copies h g (κ, y) (κ, z) := by
  unfold Assoc.get?
  induction copies with
  | nil => exact .inl ⟨rfl, rfl⟩
  | @cons e f es fs first _ ih =>
    rw [Assoc.lookup_cons, Assoc.lookup_cons, first.1]
    by_cases same : κ = e.1
    · rw [if_pos same, if_pos same]
      exact .inr ⟨e.2, f.2, rfl, rfl, rfl, first.2⟩
    · rwa [if_neg same, if_neg same]

theorem Lists.copied {es fs : List (Key × Value × Value)} (lists : Lists h ⟨es⟩ p)
    (copies : List.Forall₂ (Copies h g) es fs) : Lists g ⟨fs⟩ p where
  distinct := by
    show (fs.map Prod.fst).Nodup
    rw [keys_copies copies]
    exact lists.distinct
  named κ z known := by
    rcases get?_copies copies κ with ⟨-, none⟩ | ⟨y, _, old, new, -, label, l, m, is, also, live, same⟩
    · cases none.symm.trans known
    · cases new.symm.trans known
      obtain ⟨k, _, ts, spelt, rfl, -, listed, holds⟩ := lists.named κ y old
      cases is
      exact ⟨k, m, ts, spelt, Prod.ext label also, live, same.trans listed, holds⟩
  all k none := by
    rcases get?_copies copies (.text k.text) with ⟨none, -⟩ | ⟨y, z, -, new, -⟩
    · exact lists.all k none
    · cases none.symm.trans new

def tableOf (z : Terms) (r : Ref .dict) : Dict := Dict.ofTexts
  [("plugin_delimiter", .str z.delimiter), ("log_level", .str z.level), ("log_format", .str z.format),
    ("ignore", .obj .dict r)]

theorem toTable_writes {s : Ref .settings} {z : Terms} (sets : w.heap.Sets s z) :
    ∃ t r v, toTable s w = (.ok (.obj .dict t), v) ∧ w.heap.Grown v.heap ∧ v.heap.get t = tableOf z r ∧
      Lists v.heap (v.heap.get r) z.ignored := by
  obtain ⟨d, is, live, lists⟩ := sets.ignore
  have listed : ∀ e ∈ (w.heap.get d).entries, ∃ l : Ref .list, e.2.2 = .obj .list l ∧ w.heap.Live l := by
    intro e mem
    obtain ⟨k, l, ts, -, is, live, -⟩ := lists.named e.1 e.2 (Assoc.get?_of_mem lists.distinct mem)
    exact ⟨l, by rw [is], live⟩
  obtain ⟨fs, u, run, grown, -, copies⟩ := copies_mapM listed (.refl _)
  let r := u.heap.fresh .dict
  let x := u.alloc .dict ⟨fs⟩
  let t := x.heap.fresh .dict
  let y := x.alloc .dict (tableOf z r)
  have first : u.heap.Grown x.heap := .alloc _ (k := .dict) _ (by decide)
  have second : x.heap.Grown y.heap := .alloc _ (k := .dict) _ (by decide)
  have kept : x.heap.get r = ⟨fs⟩ := Heap.get_alloc_fresh _ _
  refine ⟨t, r, y, ?_, (grown.trans first).trans second, Heap.get_alloc_fresh _ _, ?_⟩
  · unfold toTable
    rw [run_bind, run_lift, Quiet.run_read]
    dsimp only
    rw [run_bind, run_lift, Quiet.run_heap, is]
    dsimp only [Heap.dict?]
    rw [run_bind, run]
    simp only [run_bind, run_lift, Quiet.run_newDict, sets.delimiter, sets.level, sets.format]
    rfl
  · rw [second.get r (Heap.live_fresh_alloc _ _), kept]
    exact (lists.copied copies).mono (first.trans second)

/-! ## What the table of settings says -/

theorem Lists.of_mem (lists : Lists h c p) {e : Value × Value} (mem : e ∈ c.items) :
    ∃ k l ts, e = (.str k.text, .obj .list l) ∧ h.Live l ∧ h.get l = ts.map .str ∧ p k = some ts := by
  obtain ⟨f, held, rfl⟩ := List.mem_map.mp mem
  obtain ⟨k, l, ts, -, found⟩ := lists.named f.1 f.2 (Assoc.get?_of_mem lists.distinct held)
  exact ⟨k, l, ts, found⟩

theorem ofValue?_text (k : Hook) : Hook.ofValue? (.str k.text) = some k := by cases k <;> rfl

theorem patterns?_listed {l : Ref .list} {ts : List String} (listed : h.get l = ts.map .str) :
    h.patterns? (.obj .list l) = some ts := by
  show (some (h.get l)).bind (List.mapM Value.str?) = some ts
  rw [listed, Option.bind_some]
  clear listed
  induction ts with
  | nil => rfl
  | cons t ts ih => simp [List.mapM_cons, ih, Value.str?]

theorem Lists.lastNaming (lists : Lists h c p) : lastNaming h c.items = p := by
  funext k
  unfold Settings.lastNaming
  cases last : (naming c.items k).getLast? with
  | some e =>
    obtain ⟨mem, denoted⟩ := List.mem_filter.mp (List.mem_of_getLast? last)
    obtain ⟨j, l, ts, rfl, -, listed, holds⟩ := lists.of_mem mem
    obtain rfl : j = k := by simpa [ofValue?_text] using denoted
    rw [Option.bind_some, patterns?_listed listed, holds]
  | none =>
    cases found : c.get? (.text k.text) with
    | none => exact (lists.all k found).symm
    | some y =>
      obtain ⟨j, l, ts, spelt, rfl, -⟩ := lists.named _ y found
      obtain rfl := text_injective spelt
      have mem : (.str k.text, .obj .list l) ∈ naming c.items k :=
        List.mem_filter.mpr ⟨List.mem_map_of_mem (Assoc.mem_entries_of_get? found), by simp [ofValue?_text]⟩
      rw [List.getLast?_eq_none_iff.mp last] at mem
      cases mem

theorem not_mute_listed {l : Ref .list} {ts : List String} (listed : h.get l = ts.map .str) :
    ¬ h.Mute (.obj .list l) := by
  intro mute
  cases mute with
  | object none => cases none
  | part found mem mute =>
    cases found
    rw [listed] at mem
    obtain ⟨t, -, rfl⟩ := List.mem_map.mp mem
    exact Heap.not_mute_str t mute
  | field mem => cases mem

theorem Lists.not_mute {r : Ref .dict} (lists : Lists h (h.get r) p) : ¬ h.Mute (.obj .dict r) := by
  refine Heap.not_mute_dict fun e mem => ?_
  obtain ⟨k, l, ts, rfl, -, listed, -⟩ := lists.of_mem mem
  exact ⟨Heap.not_mute_str _, not_mute_listed listed⟩

section Written

variable {r : Ref .dict} {z : Terms}

theorem items_tableOf (z : Terms) (r : Ref .dict) : (tableOf z r).items =
    [(.str "plugin_delimiter", .str z.delimiter), (.str "log_level", .str z.level),
      (.str "log_format", .str z.format), (.str "ignore", .obj .dict r)] := rfl

variable (lists : Lists h (h.get r) z.ignored)

include lists

theorem given_tableOf : Given h (tableOf z r) where
  filed := Dict.filed_ofTexts h _
  told e mem := by
    rw [items_tableOf] at mem
    simp only [List.mem_cons, List.not_mem_nil, or_false] at mem
    rcases mem with rfl | rfl | rfl | rfl <;> exact Heap.not_mute_str _
  there q mem e held := by
    obtain rfl : q = r := by simpa [items_tableOf] using mem
    obtain ⟨k, l, ts, rfl, live, -⟩ := lists.of_mem held
    exact live
  ignored q mem := by
    obtain rfl : q = r := by simpa [items_tableOf] using mem
    exact lists.not_mute

theorem terms_tableOf : terms h (tableOf z r) = z := by
  have ignored : lastNaming h (ignoreEntries h (tableOf z r)) = z.ignored := lists.lastNaming
  unfold terms
  rw [ignored]
  rfl

theorem accepts_tableOf (proper : z.Proper) : Accepts h (tableOf z r) := by
  intro e mem
  rw [items_tableOf] at mem
  simp only [List.mem_cons, List.not_mem_nil, or_false] at mem
  rcases mem with rfl | rfl | rfl | rfl
  · exact ⟨z.delimiter, rfl, proper.delimiter⟩
  · exact ⟨z.level, proper.level, rfl⟩
  · exact ⟨z.format, proper.format, rfl⟩
  · refine ⟨r, rfl, fun f held => ?_⟩
    obtain ⟨k, l, ts, rfl, -, listed, -⟩ := lists.of_mem held
    rw [ofValue?_text, patterns?_listed listed]
    exact ⟨rfl, rfl⟩

end Written

/-! ## Equal settings -/

theorem tests_eq (xs : List Data) : Data.tests xs = xs.map Data.same := by
  induction xs with
  | nil => rfl
  | cons x xs ih => rw [Data.tests, ih, List.map_cons]

theorem same_texts (ts : List String) : (Data.list (ts.map .str)).same (.list (ts.map .str)) = true := by
  have each : Data.itemsPass ((ts.map Data.str).map Data.same) (ts.map .str) = true := by
    induction ts with
    | nil => rfl
    | cons t ts ih => simpa [Data.itemsPass, Data.same] using ih
  rw [Data.same, tests_eq]
  exact each

def listing (ks : List Hook) (p : Hook → Option (List String)) : Data :=
  .dict (ks.map fun k => .str k.text) (ks.map fun k => .list (((p k).getD []).map .str))

theorem entryPasses_listing {k : Hook} {ks : List Hook} (mem : k ∈ ks) (p : Hook → Option (List String)) :
    Data.entryPasses (Data.same (.str k.text)) (Data.same (.list (((p k).getD []).map .str)))
      (ks.map fun k => .str k.text) (ks.map fun k => .list (((p k).getD []).map .str)) = true := by
  induction ks with
  | nil => cases mem
  | cons j ks ih =>
    rw [List.map_cons, List.map_cons, Data.entryPasses]
    by_cases same : k.text = j.text
    · obtain rfl : k = j := text_injective (congrArg Key.text same)
      rw [if_pos (by simp [Data.same])]
      exact same_texts _
    · rw [if_neg (by simpa [Data.same] using same)]
      exact ih ((List.mem_cons.mp mem).resolve_left fun is => same (by rw [is]))

theorem same_listing {ks ls : List Hook} (perm : ks.Perm ls) (p : Hook → Option (List String)) :
    (listing ks p).same (listing ls p) = true := by
  have subset : ∀ k ∈ ks, k ∈ ls := fun k => perm.mem_iff.mp
  have all : Data.entriesPass (ls.map fun k => .str k.text) (ls.map fun k => .list (((p k).getD []).map .str))
      (Data.tests (ks.map fun k => .str k.text))
      (Data.tests (ks.map fun k => .list (((p k).getD []).map .str))) = true := by
    clear perm
    rw [tests_eq, tests_eq]
    induction ks with
    | nil => rfl
    | cons k ks ih =>
      simp only [List.map_cons, Data.entriesPass, Bool.and_eq_true]
      exact ⟨entryPasses_listing (subset k List.mem_cons_self) p,
        ih fun j mem => subset j (List.mem_cons_of_mem _ mem)⟩
  simp only [listing, Data.same, List.length_map, perm.length_eq, all, decide_true, Bool.and_self]

structure Renders (h : Heap) (object : Value → Data) : Prop where
  text : ∀ t, object (.str t) = .str t
  list : ∀ (l : Ref .list) (ts : List String), h.get l = ts.map .str → object (.obj .list l) = .list (ts.map .str)

theorem Lists.hooks (lists : Lists h c p) : ∃ ks : List Hook, ks.Nodup ∧ (∀ k, k ∈ ks ↔ (p k).isSome) ∧
    ∀ object, Renders h object →
      .dict (c.labels.map object) (c.items.map fun e => object e.2) = listing ks p := by
  have each : ∀ e ∈ c.entries, ∃ k l ts, e = (.text k.text, .str k.text, .obj .list l) ∧
      h.get l = ts.map .str ∧ p k = some ts := by
    intro e mem
    obtain ⟨k, l, ts, spelt, is, -, listed, holds⟩ := lists.named e.1 e.2 (Assoc.get?_of_mem lists.distinct mem)
    exact ⟨k, l, ts, Prod.ext spelt is, listed, holds⟩
  -- The induction needs any part of the entries, since only all of them have distinct keys.
  have along (es : List (Key × Value × Value)) (sub : ∀ e ∈ es, e ∈ c.entries) : ∃ ks : List Hook,
      es.map Prod.fst = ks.map (fun k => .text k.text) ∧ (∀ k ∈ ks, (p k).isSome) ∧
      ∀ object, Renders h object → es.map (fun e => object e.2.1) = ks.map (fun k => .str k.text) ∧
        es.map (fun e => object e.2.2) = ks.map fun k => .list (((p k).getD []).map .str) := by
    induction es with
    | nil => exact ⟨[], rfl, by simp, fun _ _ => ⟨rfl, rfl⟩⟩
    | cons e es ih =>
      obtain ⟨ks, keys, known, rest⟩ := ih fun f mem => sub f (List.mem_cons_of_mem _ mem)
      obtain ⟨k, l, ts, rfl, listed, holds⟩ := each e (sub e List.mem_cons_self)
      refine ⟨k :: ks, by rw [List.map_cons, keys, List.map_cons], ?_, fun object renders => ?_⟩
      · simpa [holds] using known
      · obtain ⟨labels, values⟩ := rest object renders
        simp only [List.map_cons, labels, values, renders.text, renders.list l ts listed, holds, Option.getD_some,
          and_self]
  obtain ⟨ks, keys, known, rest⟩ := along c.entries fun _ mem => mem
  have keys : c.keys = ks.map fun k => .text k.text := keys
  refine ⟨ks, (keys ▸ lists.distinct).of_map, fun k => ⟨known k, fun some => ?_⟩, fun object renders => ?_⟩
  · cases found : c.get? (.text k.text) with
    | none => simp [lists.all k found] at some
    | some y =>
      have mem : Key.text k.text ∈ c.keys := List.mem_map_of_mem (Assoc.mem_entries_of_get? found)
      rw [keys] at mem
      obtain ⟨j, there, same⟩ := List.mem_map.mp mem
      rwa [← text_injective same]
  · obtain ⟨labels, values⟩ := rest object renders
    unfold listing Dict.labels Dict.items Assoc.values
    simpa only [List.map_map, Function.comp_def, Data.dict.injEq] using And.intro labels values

theorem dataFrom_obj {n : Nat} {path : List Identity} {k : Kind} (r : Ref k) (new : (k, r.id) ∉ path) :
    h.dataFrom (n + 1) path (.obj k r) = h.objectData (h.dataFrom n ((k, r.id) :: path)) k r := by
  show (if (k, r.id) ∈ path then Data.cycle else h.objectData (h.dataFrom n ((k, r.id) :: path)) k r) = _
  exact if_neg new

theorem data_settings {s : Ref .settings} {z : Terms} (sets : h.Sets s z) :
    ∃ ks : List Hook, ks.Nodup ∧ (∀ k, k ∈ ks ↔ (z.ignored k).isSome) ∧
      h.data (.obj .settings s) = .record "LoaderSettings"
        ["plugin_delimiter", "log_level", "log_format", "ignore"]
        [.str z.delimiter, .str z.level, .str z.format, listing ks z.ignored] := by
  obtain ⟨r, is, live, lists⟩ := sets.ignore
  obtain ⟨ks, distinct, known, all⟩ := lists.hooks
  refine ⟨ks, distinct, known, ?_⟩
  -- Settings, the mapping and the lists in it: the data goes three deep.
  obtain ⟨n, deep⟩ : ∃ n, h.depth = n + 3 := by
    have one : 0 < h.settings.size := Nat.lt_of_le_of_lt (Nat.zero_le _) sets.live
    have two : 0 < h.dicts.size := Nat.lt_of_le_of_lt (Nat.zero_le _) live
    exact ⟨h.depth - 3, by unfold Heap.depth; omega⟩
  have renders : Renders h (h.dataFrom (n + 2) [(.dict, r.id), (.settings, s.id)]) := by
    refine ⟨fun t => rfl, fun l ts listed => ?_⟩
    rw [dataFrom_obj l (by simp), Heap.objectData, listed, List.map_map]
    rfl
  have ignore : h.dataFrom (n + 3) [(.settings, s.id)] (.obj .dict r) = listing ks z.ignored := by
    rw [dataFrom_obj r (by simp), ← all _ renders]
    rfl
  unfold Heap.data
  rw [deep, dataFrom_obj s (by simp), Heap.objectData, sets.delimiter, sets.level, sets.format, is]
  simp only [List.map_cons, List.map_nil, ignore]
  rfl

theorem same_of_sets {s t : Ref .settings} {z : Terms} (sets : h.Sets s z) (also : h.Sets t z) :
    h.same (.obj .settings s) (.obj .settings t) = true := by
  obtain ⟨ks, distinct, known, data⟩ := data_settings sets
  obtain ⟨ls, unique, named, other⟩ := data_settings also
  have perm : ks.Perm ls := (List.perm_ext_iff_of_nodup distinct unique).mpr fun k => (known k).trans (named k).symm
  unfold Heap.same
  rw [data, other]
  have ignored := same_listing perm z.ignored
  rw [Data.same, tests_eq]
  simp only [List.map_cons, List.map_nil, Data.itemsPass, ignored]
  simp [Data.same]

/-- Settings that come of a table survive as a table. -/
theorem written_again {s : Ref .settings} {z : Terms} (sets : v.heap.Sets s z) (proper : z.Proper) :
    ∃ t u e x, toTable s v = (.ok t, u) ∧ ofTable t u = (.ok e, x) ∧
      x.heap.same (.obj .settings e) (.obj .settings s) = true := by
  obtain ⟨t, r, u, written, grown, table, lists⟩ := toTable_writes sets
  have given : Given u.heap (u.heap.get t) := table ▸ given_tableOf lists
  rcases ofTable_judged given with ⟨-, e, x, read, more, -, also⟩ | ⟨refused, -⟩
  · rw [table, terms_tableOf lists] at also
    exact ⟨.obj .dict t, u, e, x, written, read, same_of_sets also (sets.mono (grown.trans more))⟩
  · rw [table] at refused
    exact absurd (accepts_tableOf lists proper) refused

theorem returns_iff {r : Ref .dict} (given : Given w.heap (w.heap.get r)) :
    (∃ s v, ofTable (.obj .dict r) w = (.ok s, v)) ↔ Accepts w.heap (w.heap.get r) := by
  rcases ofTable_judged given with ⟨accepts, s, v, run, -⟩ | ⟨refuses, cause, v, run⟩
  · exact ⟨fun _ => accepts, fun _ => ⟨s, v, run⟩⟩
  · refine ⟨?_, fun accepts => absurd accepts refuses⟩
    rintro ⟨s, u, ok⟩
    cases run.symm.trans ok

end Settings

/-- Settings come of a table exactly if its keys are known and have values that are allowed, whatever their
order; all else is invalid. The settings say what the table says, and equal settings come of the table that
they are written as. -/
theorem settings_validated {r : Ref .dict} (given : Given w.heap (w.heap.get r)) :
    ((∃ s v, ofTable (.obj .dict r) w = (.ok s, v)) ↔ Accepts w.heap (w.heap.get r)) ∧
    (∀ f v, ofTable (.obj .dict r) w = (.error f, v) → f.kind = .validation) ∧
    (∀ q : Ref .dict, Given w.heap (w.heap.get q) → (w.heap.get q).items.Perm (w.heap.get r).items →
      ((∃ s v, ofTable (.obj .dict q) w = (.ok s, v)) ↔ ∃ s v, ofTable (.obj .dict r) w = (.ok s, v))) ∧
    ∀ s v, ofTable (.obj .dict r) w = (.ok s, v) → v.heap.Sets s (terms w.heap (w.heap.get r)) ∧
      ∃ t u e x, toTable s v = (.ok t, u) ∧ ofTable t u = (.ok e, x) ∧
        x.heap.same (.obj .settings e) (.obj .settings s) = true := by
  refine ⟨returns_iff given, fun f v error => ?_, fun q also perm => ?_, fun s v ok => ?_⟩
  · rcases ofTable_judged given with ⟨-, s, u, run, -⟩ | ⟨-, cause, u, run⟩ <;> cases run.symm.trans error
    rfl
  · rw [returns_iff given, returns_iff also]
    exact forall_congr' fun e => imp_congr_left perm.mem_iff
  · rcases ofTable_judged given with ⟨accepts, e, u, run, -, -, sets⟩ | ⟨-, cause, u, run⟩ <;>
      cases run.symm.trans ok
    exact ⟨sets, written_again sets (accepts.proper given.filed)⟩

/-- Patterns to ignore, listed for one stage and given alone for another. -/
theorem settings_validated_ignoring :
    let w : World := { heap := {
      lists := #[[.str "vendor/**", .str "*.min.js"]]
      dicts := #[Dict.ofTexts [("fetch", .obj .list ⟨0⟩), ("compile", .str "data/*")],
        Dict.ofTexts [("ignore", .obj .dict ⟨0⟩), ("log_level", .str "DEBUG")]] } }
    ∃ s v t u e x, ofTable (.obj .dict ⟨1⟩) w = (.ok s, v) ∧ toTable s v = (.ok t, u) ∧
      ofTable t u = (.ok e, x) ∧ x.heap.same (.obj .settings e) (.obj .settings s) = true := by
  intro w
  have items : (w.heap.get (⟨1⟩ : Ref .dict)).items =
    [(.str "ignore", .obj .dict ⟨0⟩), (.str "log_level", .str "DEBUG")] := rfl
  have patterns : (w.heap.get (⟨0⟩ : Ref .dict)).items =
    [(.str "fetch", .obj .list ⟨0⟩), (.str "compile", .str "data/*")] := rfl
  have listed : w.heap.get (⟨0⟩ : Ref .list) = ["vendor/**", "*.min.js"].map .str := rfl
  have told : ∀ e ∈ (w.heap.get (⟨0⟩ : Ref .dict)).items, ¬ w.heap.Mute e.1 ∧ ¬ w.heap.Mute e.2 := by
    simp only [patterns, List.forall_mem_cons, List.not_mem_nil, false_implies, implies_true, and_true]
    exact ⟨⟨Heap.not_mute_str _, not_mute_listed listed⟩, Heap.not_mute_str _, Heap.not_mute_str _⟩
  have given : Given w.heap (w.heap.get (⟨1⟩ : Ref .dict)) := {
    filed := Dict.filed_ofTexts _ _
    told := by
      simp only [items, List.forall_mem_cons, List.not_mem_nil, false_implies, implies_true, and_true]
      exact ⟨Heap.not_mute_str _, Heap.not_mute_str _⟩
    there := by
      intro r mem
      obtain rfl : r = ⟨0⟩ := by simpa [items] using mem
      simp only [patterns, List.forall_mem_cons, List.not_mem_nil, false_implies, implies_true, and_true]
      exact ⟨(by decide : w.heap.Live (⟨0⟩ : Ref .list)), trivial⟩
    ignored := by
      intro r mem
      obtain rfl : r = ⟨0⟩ := by simpa [items] using mem
      exact Heap.not_mute_dict told }
  obtain ⟨returns, -, -, again⟩ := settings_validated given
  have accepts : Accepts w.heap (w.heap.get (⟨1⟩ : Ref .dict)) := by
    intro e mem
    rw [items] at mem
    simp only [List.mem_cons, List.not_mem_nil, or_false] at mem
    rcases mem with rfl | rfl
    · exact ⟨⟨0⟩, rfl, by decide⟩
    · exact ⟨"DEBUG", by decide, rfl⟩
  obtain ⟨s, v, ok⟩ := returns.mpr accepts
  obtain ⟨-, t, u, e, x, written, read, same⟩ := again s v ok
  exact ⟨s, v, t, u, e, x, ok, written, read, same⟩

/-- A module whose format is not a tag is no pattern, and cannot be refused as one. -/
theorem settings_mute :
    let w : World := { heap := {
      lists := #[[.obj .module ⟨0⟩], []]
      modules := #[{ name := "a", format := .int 5, deps := .obj .list ⟨1⟩, settings := .none }]
      dicts := #[Dict.ofTexts [("fetch", .obj .list ⟨0⟩)], Dict.ofTexts [("ignore", .obj .dict ⟨0⟩)]] } }
    ¬ ((∃ s v, ofTable (.obj .dict ⟨1⟩) w = (.ok s, v)) ∨
      ∃ f v, ofTable (.obj .dict ⟨1⟩) w = (.error f, v) ∧ f.kind = .validation) := by
  intro w
  have run : (ofTable (.obj .dict ⟨1⟩) w).1 = .error .missing := by rfl
  rintro (⟨s, v, ok⟩ | ⟨f, v, error, invalid⟩)
  · rw [ok] at run
    cases run
  · rw [error] at run
    cases run
    cases invalid

end AsyncImport
