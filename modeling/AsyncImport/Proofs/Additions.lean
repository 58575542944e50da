import AsyncImport.Proofs.Discipline
import AsyncImport.Proofs.Tally
import AsyncImport.Session.Execute

/-!
# Futures and the library's code

The library's code makes tasks and groups, and leaves it to the scheduler to complete them: whatever it
is answered, each of its changes only adds futures. So the tasks that are set aside stay as they are.
-/

namespace AsyncImport

open Edit

/-! ## Edits -/

namespace Edit

variable {α β : Type} {k : Kind}

end Edit

namespace Loader

variable (l : Ref .loader)

end Loader

namespace Routine

variable {α β : Type} {w : World}

def Adding : Routine α → World → Prop
  | .done _, _ => True
  | .fail _, _ => True
  | .read k, w => (k w).Adding w
  | .write v k, w => w.Adds v ∧ k.Adding v
  | .call _ k, _ => ∀ o v, (k o).Adding v
  | .pause k, _ => ∀ o v, (k o).Adding v
  | .await _ k, _ => ∀ o v, (k o).Adding v

def Adds (r : Routine α) : Prop := ∀ w, r.Adding w

theorem adds_andThen {x : Routine α} {f : α → Routine β} {g : Ref .failure → Routine β} (first : x.Adds)
    (value : ∀ a, (f a).Adds) (fault : ∀ e, (g e).Adds) : (x.andThen f g).Adds := by
  intro w
  have here := first w
  clear first
  induction x generalizing w with
  | done a => exact value a w
  | fail e => exact fault e w
  | read k ih => exact ih _ w here
  | write v k ih => exact ⟨here.1, ih v here.2⟩
  | call _ k ih | pause k ih | await _ k ih => exact fun o v => ih o v (here o v)

theorem adds_bind {x : Routine α} {f : α → Routine β} (first : x.Adds) (next : ∀ a, (f a).Adds) :
    (x.bind f).Adds := by
  rw [← andThen_fail]
  exact adds_andThen first next fun _ _ => trivial

theorem adds_ofResult (o : Except (Ref .failure) α) : (ofResult o).Adds := fun _ => by cases o <;> trivial

theorem adds_edit {e : Edit α} (adds : Edit.Adds e) : (edit e).Adds := fun w =>
  ⟨adds.after w, adds_ofResult _ _⟩

theorem adds_quiet (x : Quiet α) : (liftM x : Routine α).Adds := adds_edit (Edit.adds_quiet x)

end Routine

/-! ## The library's procedures -/

namespace Edit

variable {α : Type}

mutual

theorem adds_ofData : (d : Data) → Adds (ofData d)
  | .bool _ | .int _ | .real _ | .str _ | .bytes _ | .atom .. | .none | .record .. | .cycle => by
    unfold ofData
    exact adds_pure _
  | .list xs => by
    unfold ofData
    exact adds_bind (adds_ofAll xs) fun _ => adds_quiet _
  | .tuple xs => by
    unfold ofData
    exact adds_bind (adds_ofAll xs) fun _ => adds_quiet _
  | .dict ks vs => by
    unfold ofData
    refine adds_bind (adds_ofAll ks) fun labels => adds_bind (adds_ofAll vs) fun values => ?_
    exact adds_bind (adds_foldlM _ (fun _ _ => adds_bind (adds_quiet _) fun _ => adds_pure _) _) fun _ =>
      adds_quiet _

theorem adds_ofAll : (xs : List Data) → Adds (ofAll xs)
  | [] => by
    unfold ofAll
    exact adds_pure _
  | x :: xs => by
    unfold ofAll
    exact adds_bind (adds_ofData x) fun _ => adds_bind (adds_ofAll xs) fun _ => adds_pure _

end

end Edit

namespace Routine

variable {α : Type}

def Given (ps : List Parameter) : Prop := ∀ p ∈ ps, ∀ e, p.default = some e → Edit.Adds e

end Routine

end AsyncImport
