import AsyncImport.Task.Routine
import AsyncImport.Task.Schedule

/-!
# Calling and awaiting values
-/

namespace AsyncImport

def Value.isAwaitable : Value → Bool
  | .obj kind _ => kind = .future || kind = .coroutine
  | _ => false

namespace Routine

def callValue (f : Value) (args : List Value) : Routine Value := perform (.invoke f args)

/-- Waits for a value that can be awaited. A coroutine is carried out in place, once. -/
def awaitValue (v : Value) : Routine Value := do
  match v with
  | .obj .future f => result f
  | .obj .coroutine c =>
    let co ← Edit.read c
    if co.spent then raise (.plain .runtime)
    Edit.spend c
    perform co.activity
  | _ => raise .typeMismatch

def settled (v : Value) : Routine Value :=
  if v.isAwaitable then awaitValue v else return v

def settleGiven (v : Value) : Routine Value :=
  if v.isAwaitable then perform (.awaitValue v) else return v

def awaitGiven (v : Value) : Routine Value :=
  if v.isAwaitable then perform (.awaitValue v) else raise .typeMismatch

def discard (v : Value) : Routine Unit := do
  match v with
  | .obj .coroutine c => Edit.spend c
  | _ => return ()

end Routine
end AsyncImport
