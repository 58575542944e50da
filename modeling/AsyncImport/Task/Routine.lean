import AsyncImport.Edit

/-!
# Routines

What a task runs. A routine reads and replaces the world, gives way, waits for futures, and asks for
other activities; how these are carried out is the scheduler's business. Being a plain tree of
requests, a routine can be reasoned about by recursion; activities lead to each other only through
`call`.
-/

namespace AsyncImport

/-- The end of an activity: a value, or the fault object that was raised. -/
abbrev Outcome := Except (Ref .failure) Value

inductive Routine (α : Type) : Type where
  | done (a : α)
  | fail (e : Ref .failure)
  | read (k : World → Routine α)
  | write (w : World) (k : Routine α)
  /-- Gives way to the tasks that are ready. -/
  | pause (k : Outcome → Routine α)
  /-- Waits until a future is done. -/
  | await (f : Ref .future) (k : Outcome → Routine α)
  /-- Carries out an activity before going on. -/
  | call (a : Activity) (k : Outcome → Routine α)

namespace Routine

variable {α β : Type}

def bind : Routine α → (α → Routine β) → Routine β
  | .done a, f => f a
  | .fail e, _ => .fail e
  | .read k, f => .read fun w => (k w).bind f
  | .write w k, f => .write w (k.bind f)
  | .pause k, f => .pause fun o => (k o).bind f
  | .await r k, f => .await r fun o => (k o).bind f
  | .call a k, f => .call a fun o => (k o).bind f

def andThen : Routine α → (α → Routine β) → (Ref .failure → Routine β) → Routine β
  | .done a, f, _ => f a
  | .fail e, _, g => g e
  | .read k, f, g => .read fun w => (k w).andThen f g
  | .write w k, f, g => .write w (k.andThen f g)
  | .pause k, f, g => .pause fun o => (k o).andThen f g
  | .await r k, f, g => .await r fun o => (k o).andThen f g
  | .call a k, f, g => .call a fun o => (k o).andThen f g

instance : Monad Routine where
  pure := .done
  bind := bind

@[simp] theorem pure_eq (a : α) : (pure a : Routine α) = .done a := rfl

@[simp] theorem bind_eq (x : Routine α) (f : α → Routine β) : x >>= f = x.bind f := rfl

theorem bind_done (x : Routine α) : x.bind .done = x := by
  induction x <;> simp_all [bind]

theorem andThen_fail (x : Routine α) (f : α → Routine β) : x.andThen f .fail = x.bind f := by
  induction x <;> simp_all [bind, andThen]

theorem bind_assoc {γ : Type} (x : Routine α) (f : α → Routine β) (g : β → Routine γ) :
    (x.bind f).bind g = x.bind fun a => (f a).bind g := by
  induction x <;> simp_all [bind]

instance : LawfulMonad Routine := LawfulMonad.mk' _ bind_done (fun _ _ => rfl) bind_assoc

def world : Routine World := .read .done

def ofOutcome : Outcome → Routine Value
  | .ok v => .done v
  | .error e => .fail e

def result (f : Ref .future) : Routine Value := .await f ofOutcome

def perform (a : Activity) : Routine Value := .call a ofOutcome

def giveWay : Routine Unit := .pause fun
  | .ok _ => .done ()
  | .error e => .fail e

def giveWayTimes : Nat → Routine Unit
  | 0 => .done ()
  | n + 1 => do
    giveWay
    giveWayTimes n

def ofResult : Except (Ref .failure) α → Routine α
  | .ok a => .done a
  | .error e => .fail e

def edit (e : Edit α) : Routine α :=
  .read fun w => match e.after w with
    | (o, v) => .write v (ofResult o)

instance : MonadLift Edit Routine := ⟨edit⟩

def raise (f : Refusal) : Routine α := edit (throw f.fault)

/-- Answers an ordinary fault; a cancellation passes by. -/
def rescue (x : Routine α) (answer : Ref .failure → Routine α) : Routine α :=
  x.andThen .done fun e => .read fun w =>
    if (w.heap.get e).ordinary then answer e else .fail e

/-- Goes on with `after` whether or not there was a fault, which is then raised again. -/
def ensuring (x : Routine α) (after : Routine Unit) : Routine α :=
  x.andThen (fun a => after.bind fun _ => .done a) (fun e => after.bind fun _ => .fail e)

def onFault (x : Routine α) (handler : Ref .failure → Routine Unit) : Routine α :=
  x.andThen .done fun e => (handler e).bind fun _ => .fail e

end Routine
end AsyncImport
