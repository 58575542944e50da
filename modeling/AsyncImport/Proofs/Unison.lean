import AsyncImport.Proofs.Lockstep

/-!
# Hooks that wait and hooks that do not

A hook can be run with and without waiting for what is handed over. The two ways share nothing but the
merging of results, and yet make the same calls and come to the same end, if no handler puts its result off
and the resolvers agree (`runNow_agrees`).
-/

namespace AsyncImport

open Edit Routine

variable {Q : Ref .plugin → Prop} {w v : World}

/-! ## Handlers -/

theorem sees_handlerOfModule (abreast : w.Abreast Q v) (n : String) (module : Value) :
    (handlerOfModule (.str n) module).run.Sees w v := by
  have checked (f : Value) : (if f.callable = true then pure f else do
      throw (.plugin (.notAHandler (← spoken (.str n))))
      pure f : Quiet Value).run.Sees w v := by
    split
    · exact sees_pure _ _ _
    · exact sees_bind (sees_spoken abreast.level (x := .str n) trivial) fun _ _ =>
        sees_bind (sees_throw _ _ _) fun _ _ => sees_pure _ _ _
  refine sees_heap ?_ (checked _)
  cases module with
  | obj k r =>
    cases k
    case module => simp only [abreast.alike.get r rfl]
    case draft => simp only [abreast.alike.get r rfl]
    all_goals rfl
  | _ => rfl

namespace Registry

theorem locks_resolving {r : Ref .registry} (abreast : w.Abreast Q v) (resolves : w.heap.Resolves Q r)
    (n : String) : Locks Q (resolve r (.str n)) (resolveNow r (.str n)) w v fun _ => True := by
  refine locks_look abreast (sees_read abreast.level r rfl) fun c read => ?_
  cases read
  have unresolved : Locks Q (do raise (.plugin (.noResolver (← spoken (.str n)))))
      (do raise (.plugin (.noResolver (← spoken (.str n))))) w v fun (_ : Value) => True :=
    locks_look abreast (sees_spoken abreast.level (x := .str n) trivial) fun s _ => locks_raise abreast _
  have paired := abreast.paired r resolves
  dsimp only
  split
  · next none =>
    rw [paired.mp none]
    exact unresolved
  · next there =>
    split
    · next none => exact absurd (paired.mpr none) there
    · have given := locks_bind (locks_resolve abreast resolves n) fun module w v _ abreast =>
        locks_edit ((sees_handlerOfModule abreast n module).even abreast.level fun _ _ => trivial)
      rw [Routine.bind_assoc] at given
      exact given

end Registry

theorem sees_asDraft (draft : Value) : (asDraft draft).run.Sees w v := by
  cases draft with
  | obj k r =>
    cases k
    case draft => exact sees_pure _ _ _
    all_goals exact sees_throw _ _ _
  | _ => exact sees_throw _ _ _

theorem asDraft_ok {draft : Value} {d : Ref .draft} (run : (asDraft draft).run w = (.ok d, v)) :
    draft = .obj .draft d := by
  cases draft with
  | obj k r =>
    cases k
    case draft =>
      cases run
      rfl
    all_goals cases run
  | _ => cases run

namespace Plugin

variable {p : Ref .plugin}

theorem sees_resolvingRegistry {t : Handler} (abreast : w.Abreast Q v) (named : t.isNamed) :
    (resolvingRegistry p t).run.Sees w v := by
  refine sees_bind (sees_read abreast.level p rfl) fun c _ => ?_
  dsimp only
  cases c.registry with
  | obj k r =>
    cases k
    case registry => exact sees_pure _ _ _
    all_goals exact sees_throw _ _ _
  | none =>
    have futures : t.target.Futures (w.heap.Agree v.heap) := by
      obtain ⟨target, options⟩ := t
      cases target <;> trivial
    exact sees_bind (sees_spoken abreast.level futures) fun _ _ => sees_throw _ _ _
  | _ => exact sees_throw _ _ _

theorem registry_of_resolving {t : Handler} {r : Ref .registry}
    (run : (resolvingRegistry p t).run w = (.ok r, w)) : (w.heap.get p).registry = .obj .registry r := by
  obtain ⟨c, u, read_plugin, later⟩ := bind_ok run
  cases read_plugin
  dsimp only at later
  generalize (w.heap.get p).registry = registry at later ⊢
  cases registry with
  | obj k s =>
    cases k
    case registry =>
      cases later
      rfl
    all_goals cases later
  | none =>
    obtain ⟨_, _, _, never⟩ := bind_ok later
    cases never
  | _ => cases later

theorem locks_target (abreast : w.Abreast Q v) (mem : Q p) (t : Handler) :
    Locks Q (target p t) (targetNow p t) w v fun _ => True := by
  unfold target targetNow
  split
  · next named =>
    refine locks_look abreast (sees_resolvingRegistry abreast named) fun r run => ?_
    obtain ⟨n, is⟩ := Option.isSome_iff_exists.mp named
    have text : t.target = .str n := by
      revert is
      cases t.target <;> simp [Value.str?]
    rw [text]
    exact Registry.locks_resolving abreast ⟨p, mem, registry_of_resolving run⟩ n
  · exact locks_done abreast trivial

theorem locks_runHandler (abreast : w.Abreast Q v) (mem : Q p) (k : Hook) (draft : Value) (t : Handler) :
    Locks Q (runHandler p k draft t) (runHandlerNow p k draft t) w v fun _ => True := by
  refine locks_bind (locks_target abreast mem t) fun f w v _ abreast => ?_
  refine locks_look abreast (sees_asDraft draft) fun d is => ?_
  have logged : (logRun p k d).run.Even Q (w.heap.Agree v.heap) w v fun _ => True :=
    ⟨rfl, ⟨abreast.alike, rfl, abreast.paired⟩, fun _ _ => trivial⟩
  refine locks_bind (locks_edit logged) fun _ w v _ abreast => ?_
  refine locks_bind (locks_call abreast f draft t.options) fun result w v prompt abreast => ?_
  have ready := prompt d (asDraft_ok is)
  simp only [settleGiven, ready, Bool.false_eq_true, if_false]
  exact locks_bind (locks_edit (Draft.even_merge abreast.level ready)) fun c w v _ abreast =>
    locks_done abreast trivial

theorem locks_run {hook : Value} (abreast : w.Abreast Q v) (mem : Q p)
    (futures : hook.Futures (w.heap.Agree v.heap)) (draft : Value) :
    Locks Q (run p hook draft) (runNow p hook draft) w v fun _ => True := by
  refine locks_look abreast (sees_hook abreast.level futures) fun k _ => ?_
  refine locks_look abreast (sees_read abreast.level p rfl) fun c _ => ?_
  exact locks_foldlM abreast fun t _ draft w v abreast => locks_runHandler abreast mem k draft t

end Plugin

/-! ## Members -/

theorem sees_globMatch (x pattern : Value) : (globMatch x pattern).run.Sees w v := by
  cases x with
  | none => exact sees_pure _ _ _
  | str s => cases pattern <;> first | exact sees_pure _ _ _ | exact sees_throw _ _ _
  | _ => exact sees_throw _ _ _

theorem locks_accepts (abreast : w.Abreast Q v) (m : Matcher) (x : Value) :
    Locks Q (m.accepts x) (m.accepts x) w v fun _ => True := by
  unfold Matcher.accepts
  split
  · exact locks_done abreast trivial
  · refine locks_anyM abreast fun pattern _ w v abreast => ?_
    unfold Matcher.compareWith
    split
    · exact locks_edit ((sees_globMatch x (.str pattern)).even abreast.level fun _ _ => trivial)
    · exact locks_bind (locks_call abreast _ x (.str pattern)) fun result w v _ abreast =>
        locks_edit ((sees_truthy abreast.level result).even abreast.level fun _ _ => trivial)

theorem sees_containsItem {container item : Value} (abreast : w.Abreast Q v)
    (futures : item.Futures (w.heap.Agree v.heap)) : (containsItem container item).run.Sees w v := by
  have level := abreast.level
  -- Which values are compared is known only after they came out of the container.
  have among : (do let h ← heap; return h.among item (← items container) : Quiet Bool).run.Sees w v := by
    refine sees_heap_bind (sees_items level container) (fun xs run => ?_) fun _ _ => sees_pure _ _ _
    obtain ⟨ys, out, here⟩ | ⟨-, c, never⟩ := reads_items container w
    · cases run.symm.trans here
      simp only [level.alike.among futures (level.alike.futures_items out)]
    · cases run.symm.trans never
  cases container with
  | str s =>
    refine sees_heap rfl ?_
    cases item with
    | str t => exact sees_pure _ _ _
    | _ => exact sees_throw _ _ _
  | obj k r =>
    cases k
    case dict | store =>
      refine sees_heap ?_ (sees_bind (sees_key level item) fun _ _ => sees_pure _ _ _)
      simp only [level.alike.get r rfl]
    all_goals exact among
  | _ => exact among

namespace Plugin

theorem locks_takesPart {p : Ref .plugin} (abreast : w.Abreast Q v) (d : Ref .draft) :
    Locks Q (takesPart p d) (takesPart p d) w v fun _ => True := by
  refine locks_look abreast (sees_read abreast.level p rfl) fun plugin read_plugin => ?_
  refine locks_look abreast (sees_read abreast.level d rfl) fun draft read_draft => ?_
  cases read_plugin
  cases read_draft
  refine locks_look abreast (sees_truthy abreast.level _) fun listed _ => ?_
  dsimp only
  split
  · split
    · exact locks_done abreast trivial
    · have named := abreast.alike.parts .plugin p (w.heap.get p).name List.mem_cons_self
      exact locks_edit ((sees_containsItem abreast named).even abreast.level fun _ _ => trivial)
  · split
    · exact locks_done abreast trivial
    · refine locks_anyM abreast fun rule _ w v abreast => ?_
      refine locks_look abreast (sees_read abreast.level d rfl) fun c _ => ?_
      have compared : (ruleValue c rule.name).run.Sees w v := by
        unfold ruleValue
        split
        · exact sees_pure _ _ _
        · refine sees_bind (sees_truthy abreast.level _) fun b _ => ?_
          cases b <;> exact sees_pure _ _ _
      exact locks_look abreast compared fun x _ => locks_accepts abreast rule.matcher x

end Plugin

namespace Fanout

theorem locks_selects {hook : Value} (abreast : w.Abreast Q v)
    (futures : hook.Futures (w.heap.Agree v.heap)) (draft member : Value) :
    Locks Q (selects hook draft member) (selects hook draft member) w v
      fun _ => ∃ k, Hook.ofValue? hook = some k := by
  cases member with
  | obj kind p =>
    cases kind
    case plugin =>
      refine locks_look abreast (sees_read abreast.level p rfl) fun c _ => ?_
      refine locks_look abreast (sees_hook abreast.level futures) fun k run => ?_
      have known : ∃ k, Hook.ofValue? hook = some k := by
        rcases reads_hook hook w with ⟨l, known, -⟩ | ⟨-, f, never⟩
        · exact ⟨l, known⟩
        · cases run.symm.trans never
      split
      · exact locks_look abreast (sees_asDraft draft) fun d _ =>
          (Plugin.locks_takesPart abreast d).mono fun _ _ => known
      · exact locks_done abreast known
    all_goals exact locks_raise abreast _
  | _ => exact locks_raise abreast _

theorem futures_hook {hook : Value} {k : Hook} (known : Hook.ofValue? hook = some k)
    (P : Ref .future → Prop) : hook.Futures P := by
  cases hook <;> trivial

theorem locks_selected {f : Ref .fanout} (abreast : w.Abreast Q v)
    (members : ∀ p : Ref .plugin, .obj .plugin p ∈ (w.heap.get f).plugins → Q p) (draft : Value) :
    Locks Q (selected f draft) (selected f draft) w v fun ps => ∀ p ∈ ps, Q p := by
  refine locks_look abreast (sees_read abreast.level f rfl) fun fanout read_fanout => ?_
  cases read_fanout
  have held := abreast.alike.parts .fanout f (w.heap.get f).hook List.mem_cons_self
  refine locks_bind (locks_filterM abreast (fun member _ => locks_selects abreast held draft member)
    fun known member _ w v abreast => ?_) fun chosen w v mem abreast => ?_
  · obtain ⟨k, known⟩ := known
    exact (locks_selects abreast (futures_hook known _) draft member).mono fun _ _ => trivial
  · refine locks_done abreast fun p inside => ?_
    obtain ⟨x, inside, is⟩ := List.mem_filterMap.mp inside
    refine members p (mem _ ?_)
    cases x with
    | obj k r =>
      cases k
      case plugin =>
        cases is
        exact inside
      all_goals cases is
    | _ => cases is

theorem locks_run {f : Ref .fanout} (abreast : w.Abreast Q v)
    (members : ∀ p : Ref .plugin, .obj .plugin p ∈ (w.heap.get f).plugins → Q p) (draft : Value) :
    Locks Q (run f draft) (runNow f draft) w v fun _ => True := by
  refine locks_bind (locks_selected abreast members draft) fun ps w v mem abreast => ?_
  refine locks_foldlM abreast fun p inside d w v abreast => ?_
  refine locks_look abreast (sees_read abreast.level f rfl) fun fanout read_fanout => ?_
  cases read_fanout
  exact Plugin.locks_run abreast (mem p inside)
    (abreast.alike.parts .fanout f (w.heap.get f).hook List.mem_cons_self) d

end Fanout

namespace Registry

def Enlists (h : Heap) (r : Ref .registry) (p : Ref .plugin) : Prop :=
  ∃ e ∈ (h.get r).fanouts, .obj .plugin p ∈ (h.get e.2).plugins

theorem sees_fanoutFor (abreast : w.Abreast Q v) {hook : Value}
    (futures : hook.Futures (w.heap.Agree v.heap)) (r : Ref .registry) :
    (fanoutFor r hook).run.Sees w v := by
  refine sees_bind (sees_hook abreast.level futures) fun k _ => ?_
  refine sees_bind (sees_read abreast.level r rfl) fun c _ => ?_
  dsimp only
  cases c.fanout? k with
  | some f => exact sees_pure _ _ _
  | none => exact sees_throw _ _ _

theorem enlists_of_fanoutFor {r : Ref .registry} {hook : Value} {f : Ref .fanout}
    (run : (fanoutFor r hook).run w = (.ok f, v)) (p : Ref .plugin)
    (mem : .obj .plugin p ∈ (w.heap.get f).plugins) : Enlists w.heap r p := by
  obtain ⟨k, u, parsed, later⟩ := bind_ok run
  have same : u = w := by
    rcases reads_hook hook w with ⟨_, _, here⟩ | ⟨_, _, here⟩ <;> cases parsed.symm.trans here
    rfl
  obtain ⟨c, x, read_registry, ends⟩ := bind_ok later
  cases read_registry
  subst same
  dsimp only at ends
  cases known : (u.heap.get r).fanout? k with
  | some g =>
    rw [known] at ends
    cases ends
    obtain ⟨_, _, split, -⟩ := List.lookup_eq_some_iff.mp known
    exact ⟨(k, f), by simp [split], mem⟩
  | none =>
    rw [known] at ends
    cases ends

/-- With and without waiting, a hook makes the same calls and comes to the same end: the same draft or the
same fault, in worlds that look alike. -/
theorem runNow_agrees (r : Ref .registry) (hook draft : Value) :
    (∀ answer, ∃ l o u, (run r hook draft).Unfolds w l o u ∧ Answered answer l) ∧
    (∀ answer, ∃ l o u, (runNow r hook draft).Unfolds w l o u ∧ Answered answer l) ∧
    ∀ l o u l' o' u', (run r hook draft).Unfolds w l o u → (runNow r hook draft).Unfolds w l' o' u' →
      w.heap.Paired (Enlists w.heap r) → (∀ x ∈ l, x.Fits (Enlists w.heap r)) →
      Consistent (Enlists w.heap r) l l' →
      o' = o ∧ calls l' = calls l ∧ u.heap.Alike u'.heap ∧
      (∀ d : Ref .draft, u'.heap.get d = u.heap.get d) ∧
      ∀ e : Ref .failure, u'.heap.get e = u.heap.get e := by
  refine ⟨fun answer => exists_unfolds _ answer w, fun answer => exists_unfolds _ answer w, ?_⟩
  intro l o u l' o' u' left right paired fits consistent
  have abreast : w.Abreast (Enlists w.heap r) w := ⟨.refl _, paired⟩
  have locks : Locks (Enlists w.heap r) (run r hook draft) (runNow r hook draft) w w fun _ => True :=
    locks_look abreast (sees_fanoutFor abreast (Heap.futures_agree _ hook) r) fun f found =>
      Fanout.locks_run abreast (enlists_of_fanoutFor found) draft
  rw [← List.append_nil l, ← List.append_nil l'] at consistent
  have meets := locks _ _ _ _ _ _ _ _ left right fits consistent
  have alike := meets.abreast.alike
  exact ⟨meets.outcome, meets.calls, alike, fun d => alike.get d rfl, fun e => alike.get e rfl⟩

/-! ## A handler that is found by its name -/

def declaredPair : World where
  heap :=
    { lists := #[[.str "strip", .host "first"]]
      dicts := #[Dict.ofTexts [("transform", .obj .list ⟨0⟩)], Dict.ofTexts [("path", .str "moved")]] }

/-- A plugin with two handlers, one of them the name of a module. -/
def resolvable : World := (Edit.after (do
  let r ← create (.host "find") (.host "look") (.library .globMatch)
  let _ ← register r (.str "p") (.obj .dict ⟨0⟩)
  let _ ← Draft.create (.str "n") {}) declaredPair).2

def handing : Request → World → Outcome × World
  | .call (.invoke f [_]), w =>
    if f = .host "find" then
      (.ok (.obj .coroutine (w.heap.fresh .coroutine)), w.alloc .coroutine default)
    else (.ok (.host "strip"), w)
  | .call (.invoke f [_, _]), w => (.ok (if f = .host "first" then .obj .dict ⟨1⟩ else .none), w)
  | .call (.awaitValue _), w => (.ok (.host "strip"), w)
  | _, w => (.ok .none, w)

def waiting : Routine Value := run ⟨0⟩ (.str "transform") (.obj .draft ⟨0⟩)

def direct : Routine Value := runNow ⟨0⟩ (.str "transform") (.obj .draft ⟨0⟩)

theorem handing_call (f a b : Value) : ∃ o : Value, o.isAwaitable = false ∧
    ∀ w, handing (.call (.invoke f [a, b])) w = (.ok o, w) := by
  refine ⟨_, ?_, fun w => rfl⟩
  split <;> rfl

theorem answered_call {x : Exchange} (answered : (x.outcome, x.after) = handing x.request x.before)
    {f a b : Value} (request : x.request = .call (.invoke f [a, b])) :
    x.after = x.before ∧ ∀ r, x.outcome = .ok r → r.isAwaitable = false := by
  obtain ⟨o, ready, same⟩ := handing_call f a b
  rw [request, same] at answered
  obtain ⟨outcome, after⟩ := Prod.mk.inj answered
  refine ⟨after, fun r is => ?_⟩
  cases outcome.symm.trans is
  exact ready

theorem consistent_calls {l m : List Exchange}
    (left : ∀ x ∈ l, x.call?.isSome ∧ (x.outcome, x.after) = handing x.request x.before)
    (right : ∀ y ∈ m, (y.outcome, y.after) = handing y.request y.before) : Consistent Q l m := by
  induction l generalizing m with
  | nil => trivial
  | cons x l ih =>
    cases m with
    | nil => trivial
    | cons y m =>
      obtain ⟨⟨call, here⟩, left⟩ := List.forall_mem_cons.mp left
      obtain ⟨there, right⟩ := List.forall_mem_cons.mp right
      obtain ⟨f, a, b, request⟩ := Exchange.request_of_call? call
      obtain ⟨o, -, same⟩ := handing_call f a b
      rw [Consistent]
      refine ⟨fun repeats => ⟨?_, ih left right⟩, ?_⟩
      · rw [request, same] at here
        rw [repeats.request, request, same] at there
        obtain ⟨outcome, after⟩ := Prod.mk.inj here
        obtain ⟨outcome', after'⟩ := Prod.mk.inj there
        exact ⟨outcome'.trans outcome.symm, by rw [after, after']; exact repeats.alike⟩
      · rintro ⟨r, n, -, asked, -⟩
        cases request.symm.trans asked

theorem alike_coroutine {h g : Heap} (alike : h.Alike g) (c : Coroutine) :
    (h.alloc .coroutine c).Alike g := by
  have agree : (h.alloc .coroutine c).Agree g = h.Agree g := Heap.Alike.agree_congr rfl rfl
  refine ⟨fun k seen => ?_, fun k r => ?_⟩
  · have ne : k ≠ .coroutine := by
      rintro rfl
      cases seen
    exact (alike.table k seen).trans (Heap.table_setTable_ne _ _ ne).symm
  · rw [agree]
    by_cases same : k = .coroutine
    · subst same
      simp [Cell.parts]
    · rw [Heap.get_alloc_kind _ _ same]
      exact alike.parts k r

theorem paired_resolvable {h : Heap} (same : h.table .registry = resolvable.heap.table .registry) :
    h.Paired Q := by
  intro r _
  have here : h.get r = resolvable.heap.get r := by
    unfold Heap.get
    rw [same]
  rw [here]
  by_cases first : r = ⟨0⟩
  · subst first
    have resolvers : (resolvable.heap.get (⟨0⟩ : Ref .registry)).resolver = .host "find" ∧
        (resolvable.heap.get (⟨0⟩ : Ref .registry)).directResolver = .host "look" := by decide +kernel
    simp [resolvers]
  · have size : (resolvable.heap.table .registry).size = 1 := by decide +kernel
    rw [Heap.get_not_live fun live => first (congrArg Ref.mk (Nat.lt_one_iff.mp (size ▸ live)))]
    exact Iff.rfl

/-- What is asked with and without waiting; the resolvers come to the same. -/
theorem consistent_handing {l m : List Exchange} {r s : List Request}
    (asked : l.map Exchange.request = .call (.invoke (.host "find") [.str "strip"]) ::
      .call (.awaitValue (.obj .coroutine ⟨0⟩)) :: r)
    (asked' : m.map Exchange.request = .call (.invoke (.host "look") [.str "strip"]) :: s)
    (calls : ∀ q ∈ r, ∃ f a b, q = .call (.invoke f [a, b]))
    (left : ∀ x ∈ l, (x.outcome, x.after) = handing x.request x.before)
    (right : ∀ y ∈ m, (y.outcome, y.after) = handing y.request y.before) : Consistent Q l m := by
  obtain ⟨x, l, rfl, finding, rest⟩ := List.map_eq_cons_iff.mp asked
  obtain ⟨z, l, rfl, awaiting, rest⟩ := List.map_eq_cons_iff.mp rest
  obtain ⟨y, m, rfl, looking, -⟩ := List.map_eq_cons_iff.mp asked'
  obtain ⟨found, left⟩ := List.forall_mem_cons.mp left
  obtain ⟨awaited, left⟩ := List.forall_mem_cons.mp left
  obtain ⟨given, right⟩ := List.forall_mem_cons.mp right
  rw [finding] at found
  rw [awaiting] at awaited
  rw [looking] at given
  obtain ⟨outcome, after⟩ := Prod.mk.inj found
  obtain ⟨outcome', after'⟩ := Prod.mk.inj awaited
  obtain ⟨outcome'', after''⟩ := Prod.mk.inj given
  rw [Consistent, outcome]
  refine ⟨fun repeats => ?_, fun pairs => ⟨rfl, fun _ next => ⟨⟨?_, ?_⟩, ?_⟩⟩⟩
  · obtain ⟨f, a, b, request⟩ := Exchange.request_of_call? repeats.call
    cases finding.symm.trans request
  · rw [outcome', outcome'']
  · obtain ⟨-, -, -, -, -, alike⟩ := pairs
    rw [after', next, after, after'']
    exact alike_coroutine alike _
  · refine consistent_calls (fun x mem => ⟨?_, left x mem⟩) right
    obtain ⟨f, a, b, is⟩ := calls x.request (rest ▸ List.mem_map_of_mem mem)
    simp [Exchange.call?, is]

theorem runNow_agrees_resolved : ∃ l o u l' o' u',
    waiting.Unfolds resolvable l o u ∧ direct.Unfolds resolvable l' o' u' ∧
    calls l = [(.host "strip", .obj .draft ⟨0⟩, .none), (.host "first", .obj .draft ⟨0⟩, .none)] ∧
    o' = o ∧ calls l' = calls l ∧ u.heap.Alike u'.heap ∧
    (∀ d : Ref .draft, u'.heap.get d = u.heap.get d) ∧
    ∀ e : Ref .failure, u'.heap.get e = u.heap.get e := by
  obtain ⟨-, -, agree⟩ := runNow_agrees (w := resolvable) ⟨0⟩ (.str "transform") (.obj .draft ⟨0⟩)
  have left := unfolds_traced handing waiting resolvable
  have right := unfolds_traced handing direct resolvable
  have asked : (waiting.traced handing resolvable).1.map Exchange.request =
      [.call (.invoke (.host "find") [.str "strip"]), .call (.awaitValue (.obj .coroutine ⟨0⟩)),
        .call (.invoke (.host "strip") [.obj .draft ⟨0⟩, .none]),
        .call (.invoke (.host "first") [.obj .draft ⟨0⟩, .none])] := by decide +kernel
  have asked' : (direct.traced handing resolvable).1.map Exchange.request =
      [.call (.invoke (.host "look") [.str "strip"]),
        .call (.invoke (.host "strip") [.obj .draft ⟨0⟩, .none]),
        .call (.invoke (.host "first") [.obj .draft ⟨0⟩, .none])] := by decide +kernel
  have kept : ∀ x ∈ (waiting.traced handing resolvable).1,
      x.after.heap.registries = resolvable.heap.registries := by decide +kernel
  refine ⟨_, _, _, _, _, _, left, right, by decide +kernel, ?_⟩
  refine agree _ _ _ _ _ _ left right (paired_resolvable rfl) (fun x mem => ⟨?_, ?_⟩) ?_
  · exact paired_resolvable (kept x mem)
  · intro f d options r request outcome
    exact (answered_call (traced_answered handing waiting resolvable x mem) request).2 r outcome
  · exact consistent_handing asked asked' (by simp) (traced_answered handing waiting resolvable)
      (traced_answered handing direct resolvable)

end Registry
end AsyncImport
