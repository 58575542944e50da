import AsyncImport.Loader.Stages
import AsyncImport.Proofs.HookRuns
import AsyncImport.Proofs.Requests

/-!
# What the stages ask for

Each stage calls providers and the handlers of plugins in a fixed order, with gaps where a draft has its
content or a name is ignored. The relations of this file say which calls a stage makes and what it comes
to; each is shown to hold however the stage unfolds. What a stage goes by is read when its turn comes,
so that nothing is assumed of what happens meanwhile.
-/

namespace AsyncImport

open Edit Routine

abbrev Work (α : Type) : Type := World → List Exchange → Except (Ref .failure) α → World → Prop

/-- Several work on a draft one after the other, each on what the one before has left, up to the first
fault. -/
inductive InTurn {β : Type} (does : β → Ref .draft → Work (Ref .draft)) :
    List β → Ref .draft → Work (Ref .draft)
  | done {d w} : InTurn does [] d w [] (.ok d) w
  | failed {b bs d w l e v} (fails : does b d w l (.error e) v) :
      InTurn does (b :: bs) d w l (.error e) v
  | next {b bs d c w u v l m o} (first : does b d w l (.ok c) u) (later : InTurn does bs c u m o v) :
      InTurn does (b :: bs) d w (l ++ m) o v

section

variable {α β : Type} {w u v : World} {l : List Exchange}

def Routine.Refuses (x : Routine α) : Prop :=
  ∀ ⦃w l o v⦄, x.Unfolds w l o v → l = [] ∧ ∃ e, o = .error e

def Routine.Silent (x : Routine α) : Prop := ∀ ⦃w l o v⦄, x.Unfolds w l o v → l = []

theorem Routine.Refuses.silent {x : Routine α} (refuses : x.Refuses) : x.Silent :=
  fun _ _ _ _ unfolds => (refuses unfolds).1

end

/-! ## Handlers -/

namespace Handler

abbrev Manner : Type := Ref .plugin → Handler → Ref .draft → Work (Ref .draft)

inductive ServesNow (p : Ref .plugin) (t : Handler) (d : Ref .draft) (w : World) :
    List Exchange → Except (Ref .failure) (Ref .draft) → World → Prop
  | unfound {l e v} (found : (Plugin.targetNow p t).Unfolds w l (.error e) v) :
      ServesNow p t d w l (.error e) v
  | raised {l f e u b v} (found : (Plugin.targetNow p t).Unfolds w l (.ok f) u) (near : u.Near b) :
      ServesNow p t d w (l ++ [⟨.call (.invoke f [.obj .draft d, t.options]), b, .error e, v⟩]) (.error e) v
  | unready {l f r e u b c v} (found : (Plugin.targetNow p t).Unfolds w l (.ok f) u) (near : u.Near b)
      (later : r.isAwaitable) :
      ServesNow p t d w (l ++ [⟨.call (.invoke f [.obj .draft d, t.options]), b, .ok r, c⟩]) (.error e) v
  | merged {l f r o u b c v} (found : (Plugin.targetNow p t).Unfolds w l (.ok f) u) (near : u.Near b)
      (ready : r.isAwaitable = false) (merged : Merged d c r o v) :
      ServesNow p t d w (l ++ [⟨.call (.invoke f [.obj .draft d, t.options]), b, .ok r, c⟩]) o v

end Handler

/-! ## Hooks -/

section

variable (manner : Handler.Manner)

inductive Plugin.Serves (f : Ref .fanout) (p : Ref .plugin) (d : Ref .draft) (w : World) :
    List Exchange → Except (Ref .failure) (Ref .draft) → World → Prop
  | unlabelled {e v} (label : Hook.ofValue? (w.heap.get f).hook = none) : Serves f p d w [] (.error e) v
  | handlers {k l o v} (label : Hook.ofValue? (w.heap.get f).hook = some k)
      (turns : InTurn (manner p) ((w.heap.get p).handlersFor k) d w l o v) : Serves f p d w l o v

inductive Manager.Hooks (m : Ref .manager) (k : Hook) (d : Ref .draft) (w : World) :
    List Exchange → Except (Ref .failure) (Ref .draft) → World → Prop
  | missing {e v} (missing : (w.heap.get (w.heap.get m).plugins).fanout? k = none) :
      Hooks m k d w [] (.error e) v
  | unselected {f l e v} (fanout : (w.heap.get (w.heap.get m).plugins).fanout? k = some f)
      (selecting : (Fanout.selected f (.obj .draft d)).Unfolds w l (.error e) v) :
      Hooks m k d w l (.error e) v
  | selected {f ps l n u o v} (fanout : (w.heap.get (w.heap.get m).plugins).fanout? k = some f)
      (selecting : (Fanout.selected f (.obj .draft d)).Unfolds w l (.ok ps) u)
      (turns : InTurn (Plugin.Serves manner f) ps d u n o v) : Hooks m k d w (l ++ n) o v

variable {manner} {run : Ref .plugin → Hook → Value → Handler → Routine Value}
  {f : Ref .fanout} {p : Ref .plugin} {m : Ref .manager} {k : Hook} {d : Ref .draft} {w v : World}
  {l : List Exchange}

def Plugin.turn (run : Ref .plugin → Hook → Value → Handler → Routine Value) (p : Ref .plugin)
    (hook draft : Value) : Routine Value := do
  let h ← Hook.parse hook
  ((← Edit.read p).handlersFor h).foldlM (run p h) draft

def Registry.turns (run : Ref .plugin → Hook → Value → Handler → Routine Value) (r : Ref .registry)
    (hook draft : Value) : Routine Value := do
  let f ← fanoutFor r hook
  let plugins ← Fanout.selected f draft
  plugins.foldlM (fun d p => do Plugin.turn run p (← Edit.read f).hook d) draft

section

variable (each : ∀ p k t d w l o v, (run p k (.obj .draft d) t).Unfolds w l o v →
  ∃ r, manner p t d w l r v ∧ o = r.map (.obj .draft))
include each

end

end

/-! ## Stages -/

namespace Stage

inductive Asks (provider : Value) (d : Ref .draft) (w : World) :
    List Exchange → Except (Ref .failure) (Ref .draft) → World → Prop
  | raised {l e v} (answers : Handler.Answers provider [.obj .draft d] w l (.error e) v) :
      Asks provider d w l (.error e) v
  | merged {l r u o v} (answers : Handler.Answers provider [.obj .draft d] w l (.ok r) u)
      (merged : Handler.Merged d u r o v) : Asks provider d w l o v

inductive Handles (manner : Handler.Manner) (m : Ref .manager) (k : Hook) (name : Value) (d : Ref .draft)
    (w : World) : List Exchange → Except (Ref .failure) (Ref .draft) → World → Prop
  | unjudged {l e v} (judging : (Manager.ignores m name k).Unfolds w l (.error e) v) :
      Handles manner m k name d w l (.error e) v
  | ignored {l v} (judging : (Manager.ignores m name k).Unfolds w l (.ok true) v) :
      Handles manner m k name d w l (.ok d) v
  | hooked {l n u o v} (judging : (Manager.ignores m name k).Unfolds w l (.ok false) u)
      (hooks : Manager.Hooks manner m k d u n o v) : Handles manner m k name d w (l ++ n) o v

inductive Runs (manner : Handler.Manner) (k : Hook) (skips : Draft → Bool) (manager draft : Value)
    (w : World) : List Exchange → Except (Ref .failure) (Ref .draft) → World → Prop
  | unfit {e v} (unfit : ∀ d, draft ≠ .obj .draft d) : Runs manner k skips manager draft w [] (.error e) v
  | skipped {d v} (is : draft = .obj .draft d) (skipped : skips (w.heap.get d)) (near : w.Near v) :
      Runs manner k skips manager draft w [] (.ok d) v
  | unmanaged {e v} (unmanaged : ∀ m, manager ≠ .obj .manager m) :
      Runs manner k skips manager draft w [] (.error e) v
  | handled {m d b l o v} (manages : manager = .obj .manager m) (is : draft = .obj .draft d)
      (unskipped : skips (w.heap.get d) = false) (near : w.Near b)
      (handles : Handles manner m k (w.heap.get d).name d b l o v) :
      Runs manner k skips manager draft w l o v

abbrev Transforms : Value → Value → Work (Ref .draft) :=
  Runs (fun p t => Handler.Serves p t) .transform fun _ => false

abbrev Depends : Value → Value → Work (Ref .draft) :=
  Runs (fun p t => Handler.Serves p t) .dependency Draft.isCompiled

/-- What a resolved draft is still fetched from: the handlers and then the provider, as long as there is no
content. A name that is ignored is fetched from nowhere. -/
inductive Provides (m : Ref .manager) (c : Draft) (d : Ref .draft) (w : World) :
    List Exchange → Except (Ref .failure) (Ref .draft) → World → Prop
  | ready (content : c.hasContent) : Provides m c d w [] (.ok d) w
  | unjudged {l e v} (empty : c.hasContent = false)
      (judging : (Manager.ignores m c.name .fetch).Unfolds w l (.error e) v) :
      Provides m c d w l (.error e) v
  | ignored {l v} (empty : c.hasContent = false)
      (judging : (Manager.ignores m c.name .fetch).Unfolds w l (.ok true) v) :
      Provides m c d w l (.ok d) v
  | unhooked {l n u e v} (empty : c.hasContent = false)
      (judging : (Manager.ignores m c.name .fetch).Unfolds w l (.ok false) u)
      (hooks : Manager.Hooks (fun p t => Handler.Serves p t) m .fetch d u n (.error e) v) :
      Provides m c d w (l ++ n) (.error e) v
  | found {l n u b v} (empty : c.hasContent = false)
      (judging : (Manager.ignores m c.name .fetch).Unfolds w l (.ok false) u)
      (hooks : Manager.Hooks (fun p t => Handler.Serves p t) m .fetch d u n (.ok b) v)
      (content : (v.heap.get b).hasContent) : Provides m c d w (l ++ n) (.ok b) v
  | asked {l n q u b z o v} (empty : c.hasContent = false)
      (judging : (Manager.ignores m c.name .fetch).Unfolds w l (.ok false) u)
      (hooks : Manager.Hooks (fun p t => Handler.Serves p t) m .fetch d u n (.ok b) z)
      (still : (z.heap.get b).hasContent = false) (asks : Asks (z.heap.get m).fetcher b z q o v) :
      Provides m c d w (l ++ n ++ q) o v

inductive Fetches (manager name parent : Value) (w : World) :
    List Exchange → Except (Ref .failure) (Ref .draft) → World → Prop
  | unmanaged {e v} (unmanaged : ∀ m, manager ≠ .obj .manager m) :
      Fetches manager name parent w [] (.error e) v
  | unmade {m e v} (manages : manager = .obj .manager m)
      (unmade : (Manager.createDraft m name parent).run.after w = (.error e, v)) :
      Fetches manager name parent w [] (.error e) v
  | unresolved {m d a l e v} (manages : manager = .obj .manager m)
      (made : (Manager.createDraft m name parent).run w = (.ok d, a))
      (named : (a.heap.get d).name = name) (asks : Asks (a.heap.get m).resolver d a l (.error e) v) :
      Fetches manager name parent w l (.error e) v
  | resolved {m d a l c u b n o v} (manages : manager = .obj .manager m)
      (made : (Manager.createDraft m name parent).run w = (.ok d, a))
      (named : (a.heap.get d).name = name) (asks : Asks (a.heap.get m).resolver d a l (.ok c) u)
      (near : u.Near b) (provides : Provides m (u.heap.get c) c b n o v) :
      Fetches manager name parent w (l ++ n) o v

inductive Makes (m : Ref .manager) (d : Ref .draft) (w : World) : List Exchange → Outcome → World → Prop
  | compiled {o v} (compiled : (w.heap.get d).isCompiled) (made : (Module.ofDraft d).run.after w = (o, v)) :
      Makes m d w [] (o.map (.obj .module)) v
  | refused {e v} (uncompiled : (w.heap.get d).isCompiled = false) :
      Makes m d w [⟨.call (.invoke (w.heap.get m).compiler [.obj .manager m, .obj .draft d]), w,
        .error e, v⟩] (.error e) v
  | asked {r u o v} (uncompiled : (w.heap.get d).isCompiled = false) :
      Makes m d w [⟨.call (.invoke (w.heap.get m).compiler [.obj .manager m, .obj .draft d]), w,
        .ok r, u⟩] o v

inductive Compiles (manager draft : Value) (w : World) : List Exchange → Outcome → World → Prop
  | unprepared {l e v} (runs : Runs Handler.ServesNow .compile (fun _ => false) manager draft w l (.error e) v) :
      Compiles manager draft w l (.error e) v
  | prepared {m l d u n o v} (manages : manager = .obj .manager m)
      (runs : Runs Handler.ServesNow .compile (fun _ => false) manager draft w l (.ok d) u)
      (makes : Makes m d u n o v) : Compiles manager draft w (l ++ n) o v

/-! ## What they unfold to -/

section

variable {manner : Handler.Manner} {m : Ref .manager} {k : Hook} {d : Ref .draft} {manager draft : Value}
  {skips : Draft → Bool} {w u v : World} {l : List Exchange} {o : Except (Ref .failure) (Ref .draft)}

section

variable {hook : Ref .manager → Ref .draft → Routine (Ref .draft)}
  (each : ∀ m d w l o v, (hook m d).Unfolds w l o v → Manager.Hooks manner m k d w l o v)
include each

end

end

end Stage
end AsyncImport
