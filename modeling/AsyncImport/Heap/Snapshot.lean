import AsyncImport.Heap
import AsyncImport.Value.Data

/-!
# Snapshots of values

What a value holds at this moment, as data; its key; the items that come out of it one by one. A
value that contains itself is cut off where it comes round again.
-/

namespace AsyncImport

abbrev Identity := Kind × Nat

namespace Heap

/-- The name of a value's type; faults have the names of their classes. -/
def typeName (h : Heap) : Value → String
  | .obj .failure r => (h.get r).kind.text
  | .obj .future r => match (h.get r).origin with
    | .plain => "Future"
    | .task .. => "Task"
    | .group .. => "_GatheringFuture"
  | v => v.typeName

def depth (h : Heap) : Nat :=
  h.lists.size + h.tuples.size + h.dicts.size + h.drafts.size + h.modules.size + h.plugins.size +
    h.matchers.size + h.settings.size + h.fields.size + 1

def tag (v : Value) (type title text : String) : Data :=
  .atom v type s!"<{type}.{title}: '{text}'>" s!"{type}.{title}"

def dataWith (h : Heap) (object : (k : Kind) → Ref k → Data) : Value → Data
  | .none => .none
  | .bool b => .bool b
  | .int i => .int i
  | .real x => .real x
  | .str s => .str s
  | .bytes b => .bytes b
  | .moment t s p => .atom (.moment t s p) t s p
  | .dataType t => .atom (.dataType t) "type" s!"<class '{t.text}'>" s!"<class '{t.text}'>"
  | .hook k => tag (.hook k) "HookType" k.title k.text
  | .format f => tag (.format f) "ModuleType" f.text f.text
  | .phase p => tag (.phase p) "ItemState" p.title p.text
  | .host n => .atom (.host n) "function" s!"<function {n}>" s!"<function {n}>"
  | .library p => .atom (.library p) "function" "<function>" "<function>"
  | .method k r w _ => .atom (.method k r w default) "method" "<bound method>" "<bound method>"
  | .source t => .record "Source" ["text"] [h.dataWith object t]
  | .factory f => .record "Factory" ["fn"] [h.dataWith object f]
  | .code v => .record "Code" ["value"] [h.dataWith object v]
  | .pending => .record "Pending" [] []
  | .handler t o =>
    .record "HandlerEntry" ["handler", "options"] [h.dataWith object t, h.dataWith object o]
  | .linked n => .record "ModuleLinked" ["name"] [h.dataWith object n]
  | .failed n e =>
    .record "LoadFailure" ["name", "error"] [h.dataWith object n, h.dataWith object e]
  | .registered n =>
    .record "DynamicRegistration" ["name", "message"]
      [h.dataWith object n, .str Event.registrationMessage]
  | .obj k r => object k r

def inner? : Value → Option Value
  | .format f => some (.str f.text)
  | .hook h => some (.str h.text)
  | .phase p => some (.str p.text)
  | .code v => some v
  | _ => none

/-- The values that the text of an object is made of; a module has no text while its format is not a
tag. -/
def textParts? (h : Heap) : (k : Kind) → Ref k → Option (List Value)
  | .list, r => some (h.get r)
  | .tuple, r => some (h.get r)
  | .dict, r => some ((h.get r).labels ++ (h.get r).items.map Prod.snd)
  | .draft, r => some [(h.get r).name, (h.get r).path, (h.get r).deps]
  | .module, r => (inner? (h.get r).format).map fun tag => [tag, (h.get r).deps]
  | .plugin, r => some ((h.get r).name :: (h.get r).rules.values.map Rule.name)
  | .settings, r =>
    let s := h.get r
    some [s.pluginDelimiter, s.logLevel, s.logFormat, s.ignore]
  | .field, r =>
    let f := h.get r
    some [f.type, f.default, f.description, f.min, f.max, f.choices]
  | _, _ => some []

def hasTextWith (object : (k : Kind) → Ref k → Bool) : Value → Bool
  | .source v | .factory v | .code v | .linked v | .registered v => hasTextWith object v
  | .handler v x | .failed v x => hasTextWith object v && hasTextWith object x
  | .obj k r => object k r
  | _ => true

/-- Whether a value has a text; `path` holds the objects that it lies within. -/
def hasTextFrom (h : Heap) : Nat → List Identity → Value → Bool
  | 0, _ => fun _ => true
  | fuel + 1, path => hasTextWith fun k r =>
    (k, r.id) ∈ path || (h.textParts? k r).any (·.all (h.hasTextFrom fuel ((k, r.id) :: path)))

def hasText (h : Heap) (v : Value) : Bool := h.hasTextFrom (h.depth + 1) [] v

def objectData (h : Heap) (value : Value → Data) : (k : Kind) → Ref k → Data
  | .list, r => .list ((h.get r).map value)
  | .tuple, r => .tuple ((h.get r).map value)
  | .dict, r => .dict ((h.get r).labels.map value) ((h.get r).items.map fun e => value e.2)
  | .draft, r =>
    let d := h.get r
    let text := s!"ModuleMeta(name={(value d.name).shown}, path={(value d.path).shown}, " ++
      s!"content={h.typeName d.content}, deps={(value d.deps).shown})"
    .atom (.obj .draft r) (h.typeName (.obj .draft r)) text text
  | .module, r =>
    let m := h.get r
    let format := (value ((inner? m.format).getD .none)).spoken
    let text := s!"Module(name={Text.quote m.name}, type={format}, deps={(value m.deps).shown})"
    .atom (.obj .module r) (h.typeName (.obj .module r)) text text
  | .plugin, r =>
    let p := h.get r
    let hooks := Data.list (p.handlers.keys.map fun k => .str k.text)
    let rules := Data.list (p.rules.values.map fun rule => value rule.name)
    let text := s!"Plugin(name={(value p.name).shown}, hooks={hooks.shown}, rules={rules.shown})"
    .atom (.obj .plugin r) (h.typeName (.obj .plugin r)) text text
  | .matcher, r =>
    let text := s!"RuleMatcher({(Data.list ((h.get r).patterns.map Data.str)).shown})"
    .atom (.obj .matcher r) (h.typeName (.obj .matcher r)) text text
  | .manager, r =>
    let m := h.get r
    let plugins := (h.get m.plugins).plugins.length
    let text := s!"Manager(modules={m.modules.size}, plugins={plugins})"
    .atom (.obj .manager r) (h.typeName (.obj .manager r)) text text
  | .settings, r =>
    let s := h.get r
    .record "LoaderSettings" ["plugin_delimiter", "log_level", "log_format", "ignore"]
      ([s.pluginDelimiter, s.logLevel, s.logFormat, s.ignore].map value)
  | .field, r =>
    let f := h.get r
    .record "ConfigField" ["type_", "default", "description", "min", "max", "choices"]
      ([f.type, f.default, f.description, f.min, f.max, f.choices].map value)
  | .failure, r =>
    let f := h.get r
    let args := match f.message? with
      | some m => Text.quote m
      | none => ""
    .atom (.obj .failure r) f.kind.text s!"{f.kind.text}({args})" f.message
  | .future, r =>
    let text := if (h.get r).status.isDone then "<Future finished>" else "<Future pending>"
    .atom (.obj .future r) (h.typeName (.obj .future r)) text text
  | k, r =>
    let text := s!"<{(Value.obj k r).typeName} object>"
    .atom (.obj k r) (h.typeName (.obj k r)) text text

/-- The data of a value; `path` holds the objects that it lies within. -/
def dataFrom (h : Heap) : Nat → List Identity → Value → Data
  | 0, _ => fun _ => .cycle
  | fuel + 1, path => h.dataWith fun k r =>
    if (k, r.id) ∈ path then .cycle else h.objectData (h.dataFrom fuel ((k, r.id) :: path)) k r

def data (h : Heap) (v : Value) : Data := h.dataFrom (h.depth + 1) [] v

def shown (h : Heap) (v : Value) : String := (h.data v).shown

def spoken (h : Heap) (v : Value) : String := (h.data v).spoken

def same (h : Heap) (v w : Value) : Bool := (h.data v).same (h.data w)

/-- Whether a value is among others; an object is always among those that hold it. -/
def among (h : Heap) (v : Value) (vs : List Value) : Bool := vs.any fun w => v = w || h.same w v

def length? (h : Heap) : Value → Option Nat
  | .str s => s.length
  | .bytes b => b.length
  | .obj .list r => (h.get r).length
  | .obj .tuple r => (h.get r).length
  | .obj .dict r => (h.get r).size
  | .obj .pipeline r => (h.get r).stages.length
  | .obj .store r => (h.get r).records.size
  | .obj .matcher r => (h.get r).patterns.length
  | .obj .fanout r => (h.get r).plugins.length
  | _ => none

def truthy (h : Heap) (v : Value) : Bool :=
  match h.length? v with
  | some n => n ≠ 0
  | none => match v with
    | .none => false
    | .bool b => b
    | .int i => i ≠ 0
    | .real x => !x.isZero
    | _ => true

def items? (h : Heap) : Value → Option (List Value)
  | .str s => some (s.toList.map fun c => .str c.toString)
  | .bytes b => some (b.map fun x => .int x.toNat)
  | .obj .list r => some (h.get r)
  | .obj .tuple r => some (h.get r)
  | .obj .dict r => some (h.get r).labels
  | _ => none

def sequence? (h : Heap) : Value → Option (List Value)
  | .obj .list r => some (h.get r)
  | .obj .tuple r => some (h.get r)
  | _ => none

def dict? (h : Heap) : Value → Option Dict
  | .obj .dict r => some (h.get r)
  | _ => none

def keyWith (tuple : Ref .tuple → Option Key) : Value → Option Key
  | .none => some [.none]
  | .bool b => some [.int (if b then 1 else 0)]
  | .int i => some [.int i]
  | .real x => match x.toInt? with
    | some i => some [.int i]
    | none => some [.real x]
  | .str s => some [.str s]
  | .bytes b => some [.bytes b]
  | .source v => (keyWith tuple v).map (.record "Source" :: ·)
  | .factory v => (keyWith tuple v).map (.record "Factory" :: ·)
  | .code v => (keyWith tuple v).map (.record "Code" :: ·)
  | .handler t o => do
    let t ← keyWith tuple t
    let o ← keyWith tuple o
    return .record "HandlerEntry" :: (t ++ o)
  | .method k r w _ => some [.other (.method k r w default)]
  | .obj .tuple r => tuple r
  | .obj k r =>
    if k = .list || k = .dict || k = .settings || k = .field || k = .rules then none
    else some [.other (.obj k r)]
  | v => some [.other v]

def keyFrom (h : Heap) : Nat → Value → Option Key
  | 0 => fun _ => none
  | fuel + 1 => keyWith fun r => do
    let items := h.get r
    let keys ← items.mapM (h.keyFrom fuel)
    return .tuple items.length :: keys.flatten

def key? (h : Heap) (v : Value) : Option Key := h.keyFrom (h.tuples.size + 1) v

theorem key?_of_tuples {g h : Heap} (same : g.table .tuple = h.table .tuple) (v : Value) :
    g.key? v = h.key? v := by
  have get (r : Ref .tuple) : g.get r = h.get r := by rw [Heap.get, Heap.get, same]
  have size : g.tuples.size = h.tuples.size := congrArg Array.size same
  have each (fuel : Nat) : g.keyFrom fuel = h.keyFrom fuel := by
    induction fuel with
    | zero => rfl
    | succ fuel ih =>
      funext x
      simp only [keyFrom, ih, get]
  rw [key?, key?, size, each]

end Heap
end AsyncImport
