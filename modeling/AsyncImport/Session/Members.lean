import AsyncImport.Session.Convert
import AsyncImport.Session.Loading
import AsyncImport.Session.Plugins
import AsyncImport.Session.Procedures
import AsyncImport.Session.Records

/-!
# Using values

How members are read, set and called, and what calling a value does.
-/

namespace AsyncImport

open Edit

def Value.interface (v : Value) : Interface :=
  match v with
  | .obj .list r => .ofList r
  | .obj .dict r => .ofDict r
  | .obj .draft r => .ofDraft r
  | .obj .module r => .ofModule r
  | .obj .plugin r => .ofPlugin r
  | .obj .registry r => .ofRegistry r
  | .obj .fanout r => .ofFanout r
  | .obj .matcher r => .ofMatcher r
  | .obj .ignoreRules r => .ofIgnoreRules r
  | .obj .rules r => .ofRules r
  | .obj .bus r => .ofBus r
  | .obj .pipeline r => .ofPipeline r
  | .obj .store r => .ofStore r
  | .obj .loader r => .ofLoader r
  | .obj .manager r => .ofManager r
  | .obj .settings r => .ofSettings r
  | .obj .field r => .ofField r
  | .obj .future r => .ofFuture r
  | .obj .failure r => .ofFailure r
  | v => .ofPlain v

def extraAttribute (d : Ref .draft) (name : String) : Edit Value := do
  let attributes := (← heap).dict? (← read d).attributes
  match attributes.bind fun a => a.find? (Key.text name) with
  | some v => return v
  | none => throw (.noAttribute name)

/-- Reads a member; a method is read as a value that can be called. -/
def getMember (v : Value) (l : Label) : Edit Value := do
  let i := v.interface
  match i.attribute? l, i.method? l, v with
  | some x, _, _ => x
  | none, some _, .obj k r => readMethod k r (l.word.getD .name)
  | none, _, .obj .draft d => extraAttribute d l.text
  | _, _, _ => throw .missing

def setMember (v : Value) (l : Label) (x : Value) : Edit Unit := do
  match v.interface.setter? l with
  | some f => f x
  | none => throw .missing

namespace Routine

/-- Calls a function of the host: an asynchronous one is left to be awaited. -/
def callHost (name : String) (args : List Value) : Routine Value := do
  match (← world).functions.get? name with
  | some s => if s.asynchronous then later (.host name args) else perform (.host name args)
  | none => raise .typeMismatch

def callWith (f : Value) (a : Arguments) : Routine Value := do
  match f with
  | .library p => (libraryMethod p).call a
  | .method k r w _ =>
    match (Value.obj k r).interface.methods.lookup w with
    | some m => m.call a
    | none => raise .typeMismatch
  | _ =>
    unless a.named.isEmpty do raise .typeMismatch
    match f, a.items with
    | .host n, vs => callHost n vs
    | .dataType t, vs => convert t vs
    | .obj .delegate r, [] =>
      let d ← Edit.read r
      perform (.require d.manager d.name)
    | .obj .decorator r, [callback] =>
      let d ← Edit.read r
      Bus.subscribeTo d.bus d.id callback d.priority
    | _, _ => raise .typeMismatch

def callMember (v : Value) (l : Label) (a : Arguments) : Routine Value := do
  match v.interface.method? l with
  | some m => m.call a
  | none => callWith (← getMember v l) a

end Routine
end AsyncImport
