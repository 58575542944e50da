import AsyncImport.Manager.Cache

/-!
# The loader's records

Which names a loader works on, and how far each has come.
-/

namespace AsyncImport.Loader

open Edit

def managerOf (l : Ref .loader) : Quiet (Ref .manager) := do
  match (← read l).manager with
  | .obj .manager m => return m
  | _ => throw .missing

def storeOf (l : Ref .loader) : Quiet Store := do read (← read l).store

def updateStore (l : Ref .loader) (f : Store → Store) : Edit Unit := do
  update (← read l).store f

def has (l : Ref .loader) (name : Value) : Quiet Bool :=
  return (← storeOf l).contains (← key name)

def isIn (l : Ref .loader) (p : Phase) (name : Value) : Quiet Bool :=
  return (← storeOf l).holds (.phase p) (← key name)

def itemIn (l : Ref .loader) (p : Phase) (name : Value) : Quiet (Option Value) :=
  return (← storeOf l).get? (.phase p) (← key name)

def setItem (l : Ref .loader) (p : Phase) (name item : Value) : Edit Unit := do
  let k ← key name
  updateStore l fun s => s.set (.phase p) k name item

def remove (l : Ref .loader) (name : Value) : Edit Value := do
  let k ← key name
  let item := ((← storeOf l).item? k).getD .none
  updateStore l fun s => s.remove k
  return item

/-- Removes the record of a name in flight, if the running task is the one in flight. -/
def dropLoading (l : Ref .loader) (name : Value) : Edit Unit := do
  match ← itemIn l .loading name, (← get).current with
  | some (.obj .future f), some t => if f = t then discard (remove l name)
  | _, _ => return ()

end AsyncImport.Loader
