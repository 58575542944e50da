import AsyncImport.Edit

/-!
# The module cache

Each manager keeps the modules it has linked, by name.
-/

namespace AsyncImport.Manager

open Edit

def find (m : Ref .manager) (name : Value) : Quiet (Option (Ref .module)) := do
  let _ ← key name
  return name.str?.bind (← read m).modules.get?

def has (m : Ref .manager) (name : Value) : Quiet Bool := return (← find m name).isSome

def cache (m : Ref .manager) (module : Value) : Edit Unit := do
  match module with
  | .obj .module r =>
    let name := (← read r).name
    update m fun c => { c with modules := c.modules.insert name r }
  | _ => throw (.notCacheable ((← heap).typeName module))

def delete (m : Ref .manager) (name : Value) : Edit (Option (Ref .module)) := do
  let found ← find m name
  name.str?.forM fun n => update m fun c => { c with modules := c.modules.erase n }
  return found

end AsyncImport.Manager
