import AsyncImport.Heap.Snapshot

/-!
# Views

What a host is shown of a value. Drafts, modules and settings show their fields; within the record
of calls, drafts and modules show only their names.
-/

namespace AsyncImport

/-- What a function is shown as. -/
inductive FunctionName where
  | host (name : String)
  | dataType (t : DataType)
  | library (p : Procedure)
  | method (w : Word)
  | decorator
  deriving DecidableEq, Repr

inductive View where
  | null
  | bool (b : Bool)
  | int (i : Int)
  | real (x : Binary)
  | str (s : String)
  | bytes (b : List UInt8)
  | list (items : List View)
  | tuple (items : List View)
  | map (keys values : List View)
  | hook (h : Hook)
  | format (f : Format)
  | phase (p : Phase)
  | function (name : FunctionName)
  | future (done : Bool)
  | draft (name path deps plugins format referrer attributes content : View)
  | draftName (name : View)
  | module (name : String) (format deps : View) (hasCode : Bool) (code factory settings : View)
  | moduleName (name : String)
  | source (text : View)
  | factory (fn : View)
  | code (value : View)
  | pending
  | handler (target options : View)
  | plugin (name : View)
  | settings (delimiter level format ignore : View)
  | delegate (name : View)
  | failure (f : Fault)
  | object (type : String)
  deriving Inhabited

namespace Heap

def viewWith (h : Heap) (object : (k : Kind) → Ref k → View) : Value → View
  | .none => .null
  | .bool b => .bool b
  | .int i => .int i
  | .real x => .real x
  | .str s => .str s
  | .bytes b => .bytes b
  | .dataType t => .function (.dataType t)
  | .hook k => .hook k
  | .format f => .format f
  | .phase p => .phase p
  | .host n => .function (.host n)
  | .library p => .function (.library p)
  | .method _ _ w _ => .function (.method w)
  | .source t => .source (h.viewWith object t)
  | .factory f => .factory (h.viewWith object f)
  | .code v => .code (h.viewWith object v)
  | .pending => .pending
  | .handler t o => .handler (h.viewWith object t) (h.viewWith object o)
  | .obj k r => object k r
  | v => .object v.typeName

/-- The patterns to ignore are shown as lists, also where they stand in another collection. -/
def ignoreView (h : Heap) (value : Value → View) (ignore : Value) : View :=
  match h.dict? ignore with
  | some d => .map (d.labels.map value) (d.items.map fun e =>
      match h.items? e.2 with
      | some vs => .list (vs.map value)
      | none => value e.2)
  | none => value ignore

def objectView (h : Heap) (brief : Bool) (value : Value → View) : (k : Kind) → Ref k → View
  | .list, r => .list ((h.get r).map value)
  | .tuple, r => .tuple ((h.get r).map value)
  | .dict, r => .map ((h.get r).labels.map value) ((h.get r).items.map fun e => value e.2)
  | .draft, r =>
    let d := h.get r
    if brief then .draftName (value d.name)
    else .draft (value d.name) (value d.path) (value d.deps) (value d.plugins) (value d.format)
      (value d.referrer) (value d.attributes) (value d.content)
  | .module, r =>
    let m := h.get r
    if brief then .moduleName m.name
    else .module m.name (value m.format) (value m.deps) m.hasCode (value m.shownCode)
      (value m.factory) (value m.settings)
  | .plugin, r => .plugin (value (h.get r).name)
  | .settings, r =>
    let s := h.get r
    .settings (value s.pluginDelimiter) (value s.logLevel) (value s.logFormat)
      (h.ignoreView value s.ignore)
  | .future, r => .future (h.get r).status.isDone
  | .delegate, r => .delegate (value (h.get r).name)
  | .decorator, _ => .function .decorator
  | .failure, r => .failure (h.get r)
  | k, r => .object (Value.obj k r).typeName

def viewFrom (h : Heap) (brief : Bool) : Nat → List Identity → Value → View
  | 0, _ => fun _ => .object "..."
  | fuel + 1, path => h.viewWith fun k r =>
    if (k, r.id) ∈ path then .object "..."
    else h.objectView brief (h.viewFrom brief fuel ((k, r.id) :: path)) k r

def view (h : Heap) (v : Value) : View :=
  h.viewFrom false (h.depth + h.delegates.size + 1) [] v

def briefView (h : Heap) (v : Value) : View :=
  h.viewFrom true (h.depth + h.delegates.size + 1) [] v

end Heap
end AsyncImport
