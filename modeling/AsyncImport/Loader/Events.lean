import AsyncImport.Event.Emit

/-!
# Diagnostics

The events that tell a host what becomes of its modules.
-/

namespace AsyncImport

open Edit Routine

namespace Event

def registration : String := "loader.register.dynamic"

def failure : String := "loader.error"

def link : String := "loader.module.linked"

end Event

def nameOf (v : Value) : Quiet Value := do
  let h ← heap
  match v with
  | .obj .module m => return .str (h.get m).name
  | .obj .draft d => return (h.get d).name
  | .obj .plugin p => return (h.get p).name
  | .linked n | .failed n _ | .registered n => return n
  | .hook h => return .str h.title
  | .format f => return .str f.text
  | .phase p => return .str p.title
  | _ => throw .missing

def codeOf (v : Value) : Quiet Value := do
  let h ← heap
  match v with
  | .obj .module m => return (h.get m).shownCode
  | .obj .draft d => return (h.get d).code
  | _ => throw .missing

namespace Manager

/-- The text under which a fault is logged: its own, or the name of its class. -/
def faultText (error : Value) : Quiet String := do
  match error with
  | .obj .failure r =>
    let f ← Edit.read r
    return f.message?.getD f.kind.text
  | _ => spoken error

def report (m : Ref .manager) (name error : Value) : Routine Unit := do
  Edit.log .error "loader.failed" [("module", name), ("error", .str (← faultText error))]
  Bus.emitOn (← Edit.read m).events (.str Event.failure) (.failed name error)

def reportRegistration (m : Ref .manager) (name : Value) : Routine Unit := do
  Edit.log .warning "loader.dynamic_registration"
    [("module", name),
     ("hint", .str "Registering a module is not needed when it is already being loaded")]
  Bus.emitOn (← Edit.read m).events (.str Event.registration) (.registered name)

end Manager
end AsyncImport
