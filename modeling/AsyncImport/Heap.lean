import AsyncImport.Config.Records
import AsyncImport.Draft.Basic
import AsyncImport.Event.Bus
import AsyncImport.Fault
import AsyncImport.Loader.Waits
import AsyncImport.Module.Basic
import AsyncImport.Plugin.Basic
import AsyncImport.Store
import AsyncImport.Task.Future

/-!
# Objects

The state of every object, by kind and number. An object is made once and keeps its number; `get`,
`set` and `alloc` are the only ways to it.
-/

namespace AsyncImport

structure Pipeline where
  stages : List Value := []
  deriving DecidableEq, Repr, Inhabited

/-- The rules of a manager. -/
structure Rules where
  ignore : Ref .ignoreRules
  deriving DecidableEq, Repr, Inhabited

structure Loader where
  manager : Value
  pipeline : Value
  store : Ref .store
  waits : Waits := {}
  deriving DecidableEq, Repr, Inhabited

structure Manager where
  settings : Value
  events : Value
  resolver : Value
  fetcher : Value
  compiler : Value
  linker : Value
  rules : Ref .rules
  plugins : Ref .registry
  modules : Assoc String (Ref .module) := {}
  loader : Ref .loader
  deriving DecidableEq, Repr, Inhabited

/-- A call of `require` with its name already chosen. -/
structure Delegate where
  manager : Ref .manager
  name : Value
  deriving DecidableEq, Repr, Inhabited

/-- A subscription that waits for its subscriber. -/
structure Decorator where
  bus : Ref .bus
  id : Value
  priority : Value
  deriving DecidableEq, Repr, Inhabited

instance : Inhabited Fault := ⟨.plain .general⟩

abbrev Cell : Kind → Type
  | .list => List Value
  | .tuple => List Value
  | .dict => Dict
  | .draft => Draft
  | .module => Module
  | .plugin => Plugin
  | .registry => Registry
  | .fanout => Fanout
  | .matcher => Matcher
  | .ignoreRules => IgnoreRules
  | .rules => Rules
  | .bus => Bus
  | .pipeline => Pipeline
  | .store => Store
  | .loader => Loader
  | .manager => Manager
  | .settings => Settings
  | .field => FieldRecord
  | .future => Future
  | .coroutine => Coroutine
  | .failure => Fault
  | .delegate => Delegate
  | .decorator => Decorator
  | .reading => Unit

instance (k : Kind) : Inhabited (Cell k) :=
  match k with
  | .list | .tuple => ⟨([] : List Value)⟩
  | .dict => inferInstanceAs (Inhabited Dict)
  | .draft => inferInstanceAs (Inhabited Draft)
  | .module => inferInstanceAs (Inhabited Module)
  | .plugin => inferInstanceAs (Inhabited Plugin)
  | .registry => inferInstanceAs (Inhabited Registry)
  | .fanout => inferInstanceAs (Inhabited Fanout)
  | .matcher => inferInstanceAs (Inhabited Matcher)
  | .ignoreRules => inferInstanceAs (Inhabited IgnoreRules)
  | .rules => inferInstanceAs (Inhabited Rules)
  | .bus => inferInstanceAs (Inhabited Bus)
  | .pipeline => inferInstanceAs (Inhabited Pipeline)
  | .store => inferInstanceAs (Inhabited Store)
  | .loader => inferInstanceAs (Inhabited Loader)
  | .manager => inferInstanceAs (Inhabited Manager)
  | .settings => inferInstanceAs (Inhabited Settings)
  | .field => inferInstanceAs (Inhabited FieldRecord)
  | .future => inferInstanceAs (Inhabited Future)
  | .coroutine => inferInstanceAs (Inhabited Coroutine)
  | .failure => inferInstanceAs (Inhabited Fault)
  | .delegate => inferInstanceAs (Inhabited Delegate)
  | .decorator => inferInstanceAs (Inhabited Decorator)
  | .reading => inferInstanceAs (Inhabited Unit)

structure Heap where
  lists : Array (Cell .list) := #[]
  tuples : Array (Cell .tuple) := #[]
  dicts : Array (Cell .dict) := #[]
  drafts : Array (Cell .draft) := #[]
  modules : Array (Cell .module) := #[]
  plugins : Array (Cell .plugin) := #[]
  registries : Array (Cell .registry) := #[]
  fanouts : Array (Cell .fanout) := #[]
  matchers : Array (Cell .matcher) := #[]
  ignoreRules : Array (Cell .ignoreRules) := #[]
  rules : Array (Cell .rules) := #[]
  buses : Array (Cell .bus) := #[]
  pipelines : Array (Cell .pipeline) := #[]
  stores : Array (Cell .store) := #[]
  loaders : Array (Cell .loader) := #[]
  managers : Array (Cell .manager) := #[]
  settings : Array (Cell .settings) := #[]
  fields : Array (Cell .field) := #[]
  futures : Array (Cell .future) := #[]
  coroutines : Array (Cell .coroutine) := #[]
  failures : Array (Cell .failure) := #[]
  delegates : Array (Cell .delegate) := #[]
  decorators : Array (Cell .decorator) := #[]
  readings : Array (Cell .reading) := #[]

namespace Heap

def table (h : Heap) : (k : Kind) → Array (Cell k)
  | .list => h.lists
  | .tuple => h.tuples
  | .dict => h.dicts
  | .draft => h.drafts
  | .module => h.modules
  | .plugin => h.plugins
  | .registry => h.registries
  | .fanout => h.fanouts
  | .matcher => h.matchers
  | .ignoreRules => h.ignoreRules
  | .rules => h.rules
  | .bus => h.buses
  | .pipeline => h.pipelines
  | .store => h.stores
  | .loader => h.loaders
  | .manager => h.managers
  | .settings => h.settings
  | .field => h.fields
  | .future => h.futures
  | .coroutine => h.coroutines
  | .failure => h.failures
  | .delegate => h.delegates
  | .decorator => h.decorators
  | .reading => h.readings

def setTable (h : Heap) : (k : Kind) → Array (Cell k) → Heap
  | .list, t => { h with lists := t }
  | .tuple, t => { h with tuples := t }
  | .dict, t => { h with dicts := t }
  | .draft, t => { h with drafts := t }
  | .module, t => { h with modules := t }
  | .plugin, t => { h with plugins := t }
  | .registry, t => { h with registries := t }
  | .fanout, t => { h with fanouts := t }
  | .matcher, t => { h with matchers := t }
  | .ignoreRules, t => { h with ignoreRules := t }
  | .rules, t => { h with rules := t }
  | .bus, t => { h with buses := t }
  | .pipeline, t => { h with pipelines := t }
  | .store, t => { h with stores := t }
  | .loader, t => { h with loaders := t }
  | .manager, t => { h with managers := t }
  | .settings, t => { h with settings := t }
  | .field, t => { h with fields := t }
  | .future, t => { h with futures := t }
  | .coroutine, t => { h with coroutines := t }
  | .failure, t => { h with failures := t }
  | .delegate, t => { h with delegates := t }
  | .decorator, t => { h with decorators := t }
  | .reading, t => { h with readings := t }

variable {k : Kind}

def get (h : Heap) (r : Ref k) : Cell k := (h.table k)[r.id]?.getD default

def set (h : Heap) (r : Ref k) (c : Cell k) : Heap :=
  h.setTable k ((h.table k).setIfInBounds r.id c)

def fresh (h : Heap) (k : Kind) : Ref k := ⟨(h.table k).size⟩

def alloc (h : Heap) (k : Kind) (c : Cell k) : Heap := h.setTable k ((h.table k).push c)

def Live (h : Heap) (r : Ref k) : Prop := r.id < (h.table k).size

instance (h : Heap) (r : Ref k) : Decidable (h.Live r) := inferInstanceAs (Decidable (_ < _))

theorem table_setTable (h : Heap) (k : Kind) (t : Array (Cell k)) :
    (h.setTable k t).table k = t := by
  cases k <;> rfl

theorem table_setTable_ne (h : Heap) {k l : Kind} (t : Array (Cell k)) (ne : l ≠ k) :
    (h.setTable k t).table l = h.table l := by
  cases k <;> cases l <;> first | rfl | exact absurd rfl ne

theorem get_set_self (h : Heap) {r : Ref k} (c : Cell k) (live : h.Live r) :
    (h.set r c).get r = c := by
  unfold Live at live
  simp [get, set, table_setTable, live]

theorem get_set_ne (h : Heap) {r s : Ref k} (c : Cell k) (ne : s ≠ r) :
    (h.set r c).get s = h.get s := by
  have : r.id ≠ s.id := fun e => ne (by cases r; cases s; simp_all)
  simp [get, set, table_setTable, this]

theorem get_set_kind (h : Heap) {k l : Kind} {r : Ref k} {s : Ref l} (c : Cell k) (ne : l ≠ k) :
    (h.set r c).get s = h.get s := by
  simp [get, set, table_setTable_ne h _ ne]

theorem get_alloc_live (h : Heap) {r : Ref k} (c : Cell k) (live : h.Live r) :
    (h.alloc k c).get r = h.get r := by
  unfold Live at live
  simp [get, alloc, table_setTable, Array.getElem?_push, Nat.ne_of_lt live]

theorem get_alloc_kind (h : Heap) {k l : Kind} {s : Ref l} (c : Cell k) (ne : l ≠ k) :
    (h.alloc k c).get s = h.get s := by
  simp [get, alloc, table_setTable_ne h _ ne]

theorem get_alloc_fresh (h : Heap) (c : Cell k) : (h.alloc k c).get (h.fresh k) = c := by
  simp [get, alloc, fresh, table_setTable]

end Heap
end AsyncImport
