import AsyncImport.World

/-!
# Edits

How the world is read and changed. Most of the library only makes data and changes it in passing:
such edits are `Quiet`, and carry the proof of it.
-/

namespace AsyncImport

theorem Edit.run_bind {α β : Type} (x : Edit α) (f : α → Edit β) (w : World) :
    (x >>= f) w = match x w with
      | (.ok a, w) => f a w
      | (.error e, w) => (.error e, w) := by
  show (ExceptT.bind x f) w = _
  simp only [ExceptT.bind, ExceptT.mk, bind, StateT.bind, ExceptT.bindCont]
  rcases x w with ⟨(_ | _), _⟩ <;> rfl

/-- Whether objects of a kind are data, which is made and changed in passing. Coroutines count as
data. -/
def Kind.isData : Kind → Bool
  | .list | .tuple | .dict | .draft | .module | .coroutine | .failure | .delegate | .reading => true
  | _ => false

theorem Kind.isData_dict : Kind.dict.isData = true := rfl

theorem Kind.isData_coroutine : Kind.coroutine.isData = true := rfl

/-- What does not change in data: sequences, the names of drafts, the names and dependencies of
modules, and what a coroutine is for. -/
def Cell.Keeps : (k : Kind) → Cell k → Cell k → Prop
  | .list, c, d => d = c
  | .tuple, c, d => d = c
  | .draft, c, d => d.name = c.name
  | .module, c, d => d.name = c.name ∧ d.deps = c.deps
  | .coroutine, c, d => d.activity = c.activity
  | .failure, c, d => d = c
  | _, _, _ => True

def Cell.Straight : (k : Kind) → Cell k → Prop
  | .failure, c => Fault.isCircular c = false
  | _, _ => True

/-- Nothing but data and notes differs between two moments, and data keeps what it has to keep. No
event was emitted, and no new fault is about a circle. -/
structure World.Near (w v : World) : Prop where
  ready : v.ready = w.ready
  current : v.current = w.current
  functions : v.functions = w.functions
  emitted : v.emitted = w.emitted
  table : ∀ k : Kind, k.isData = false → v.heap.table k = w.heap.table k
  size : ∀ k : Kind, (w.heap.table k).size ≤ (v.heap.table k).size
  keeps : ∀ {k : Kind} (r : Ref k), w.heap.Live r → Cell.Keeps k (w.heap.get r) (v.heap.get r)
  straight : ∀ r : Ref .failure, ¬ w.heap.Live r → Fault.isCircular (v.heap.get r) = false

namespace World.Near

theorem straight_dead {h : Heap} {r : Ref .failure} (dead : ¬ h.Live r) :
    Fault.isCircular (h.get r) = false := by
  unfold Heap.Live at dead
  rw [Heap.get, Array.getElem?_eq_none (Nat.le_of_not_lt dead)]
  rfl

theorem keeps_refl (k : Kind) (c : Cell k) : Cell.Keeps k c c := by
  cases k <;> trivial

theorem keeps_trans {k : Kind} {b c d : Cell k} (first : Cell.Keeps k b c)
    (next : Cell.Keeps k c d) : Cell.Keeps k b d := by
  cases k <;> first
    | trivial
    | exact Eq.trans next first
    | exact ⟨next.1.trans first.1, next.2.trans first.2⟩

theorem refl (w : World) : w.Near w where
  ready := rfl
  current := rfl
  functions := rfl
  emitted := rfl
  table _ _ := rfl
  size _ := Nat.le_refl _
  keeps _ _ := keeps_refl _ _
  straight _ dead := straight_dead dead

theorem trans {u v w : World} (a : u.Near v) (b : v.Near w) : u.Near w where
  ready := b.ready.trans a.ready
  current := b.current.trans a.current
  functions := b.functions.trans a.functions
  emitted := b.emitted.trans a.emitted
  table k data := (b.table k data).trans (a.table k data)
  size k := Nat.le_trans (a.size k) (b.size k)
  keeps r live := keeps_trans (a.keeps r live) (b.keeps r (Nat.lt_of_lt_of_le live (a.size _)))
  straight r dead := by
    by_cases live : v.heap.Live r
    · have kept : w.heap.get r = v.heap.get r := b.keeps r live
      rw [kept]
      exact a.straight r dead
    · exact b.straight r live

theorem ofHeapEq {w v : World} (ready : v.ready = w.ready) (current : v.current = w.current)
    (functions : v.functions = w.functions) (emitted : v.emitted = w.emitted)
    (heap : v.heap = w.heap) : w.Near v where
  ready := ready
  current := current
  functions := functions
  emitted := emitted
  table _ _ := by rw [heap]
  size _ := by simp [heap]
  keeps _ _ := by rw [heap]; exact keeps_refl _ _
  straight _ dead := by rw [heap]; exact straight_dead dead

theorem ofSet (w : World) {k : Kind} (r : Ref k) (c : Cell k) (data : k.isData = true)
    (keeps : Cell.Keeps k (w.heap.get r) c) : w.Near { w with heap := w.heap.set r c } where
  ready := rfl
  current := rfl
  functions := rfl
  emitted := rfl
  table l hard := Heap.table_setTable_ne _ _ fun e => by simp_all
  size l := by
    by_cases e : l = k
    · subst e
      simp [Heap.set, Heap.table_setTable]
    · simp [Heap.set, Heap.table_setTable_ne _ _ e]
  keeps {l} s live := by
    by_cases e : l = k
    · subst e
      by_cases same : s = r
      · subst same
        rwa [Heap.get_set_self _ _ live]
      · rw [Heap.get_set_ne _ _ same]
        exact keeps_refl _ _
    · rw [Heap.get_set_kind _ _ e]
      exact keeps_refl _ _
  straight s dead := straight_dead fun live => dead (by
    by_cases e : Kind.failure = k
    · subst e
      simpa [Heap.Live, Heap.set, Heap.table_setTable] using live
    · simpa [Heap.Live, Heap.set, Heap.table_setTable_ne _ _ e] using live)

theorem ofAlloc (w : World) {k : Kind} (c : Cell k) (data : k.isData = true)
    (straight : Cell.Straight k c) : w.Near { w with heap := w.heap.alloc k c } where
  ready := rfl
  current := rfl
  functions := rfl
  emitted := rfl
  table l hard := Heap.table_setTable_ne _ _ fun e => by simp_all
  size l := by
    by_cases e : l = k
    · subst e
      simp [Heap.alloc, Heap.table_setTable]
    · simp [Heap.alloc, Heap.table_setTable_ne _ _ e]
  keeps {l} r live := by
    by_cases e : l = k
    · subst e
      rw [Heap.get_alloc_live _ _ live]
      exact keeps_refl _ _
    · rw [Heap.get_alloc_kind _ _ e]
      exact keeps_refl _ _
  straight s dead := by
    by_cases e : k = .failure
    · subst e
      by_cases same : s = w.heap.fresh .failure
      · rw [same, Heap.get_alloc_fresh]
        exact straight
      · refine straight_dead fun live => ?_
        have size : s.id < (w.heap.table .failure).size + 1 := by
          simpa [Heap.Live, Heap.alloc, Heap.table_setTable] using live
        rcases Nat.lt_succ_iff_lt_or_eq.mp size with known | last
        · exact dead known
        · exact same (by cases s; exact congrArg Ref.mk last)
    · rw [Heap.get_alloc_kind _ _ (Ne.symm e)]
      exact straight_dead dead

end World.Near

/-- An edit of data: whatever comes of it, nothing but data and notes has changed. It does not look
for circles. -/
structure Quiet (α : Type) where
  run : Edit α
  near : ∀ w : World, w.Near (run w).2
  straight : ∀ (w : World) (f : Fault), (run w).1 = .error f → f.isCircular = false

namespace Quiet

variable {α : Type} {k : Kind}

instance : Monad Quiet where
  pure a := ⟨pure a, World.Near.refl, fun _ _ never => by cases never⟩
  bind x f := ⟨x.run >>= fun a => (f a).run, fun w => by
    rw [Edit.run_bind]
    have first := x.near w
    rcases h : x.run w with ⟨_ | a, v⟩ <;> rw [h] at first
    · exact first
    · exact first.trans ((f a).near v), fun w e => by
    rw [Edit.run_bind]
    have first := x.straight w
    rcases h : x.run w with ⟨c | a, v⟩ <;> rw [h] at first
    · exact fun same => first e (by cases same; rfl)
    · exact (f a).straight v e⟩

instance : MonadExcept Refusal Quiet where
  throw f := ⟨throw f.fault, World.Near.refl, fun _ _ same => by cases same; exact f.straight⟩
  tryCatch x h :=
    { run := fun w => match ends : x.run w with
        | (.error f, v) => (h ⟨f, x.straight w f (by rw [ends])⟩).run v
        | (.ok a, v) => (.ok a, v)
      near := fun w => by
        have first := x.near w
        split
        · next f v ends =>
          rw [ends] at first
          exact first.trans ((h _).near v)
        · next a v ends => rwa [ends] at first
      straight := fun w e => by
        split
        · exact (h _).straight _ e
        · exact fun never => by cases never }

instance : MonadLift Quiet Edit := ⟨run⟩

def ofWorld (f : World → α) : Quiet α :=
  ⟨return f (← get), World.Near.refl, fun _ _ never => by cases never⟩

end Quiet

namespace Edit

variable {k : Kind}

def heap : Quiet Heap := .ofWorld World.heap

def read (r : Ref k) : Quiet (Cell k) := .ofWorld fun w => w.heap.get r

def write (r : Ref k) (c : Cell k) : Edit Unit :=
  modify fun w => { w with heap := w.heap.set r c }

def update (r : Ref k) (f : Cell k → Cell k) : Edit Unit :=
  modify fun w => { w with heap := w.heap.set r (f (w.heap.get r)) }

def create (k : Kind) (c : Cell k) : Edit (Ref k) := do
  let r := (← get).heap.fresh k
  modify fun w => { w with heap := w.heap.alloc k c }
  return r

def alter (r : Ref k) (f : Cell k → Cell k) (data : k.isData = true := by rfl)
    (keeps : ∀ c, Cell.Keeps k c (f c) := by intro _; trivial) : Quiet Unit :=
  ⟨update r f, fun w => .ofSet w r _ data (keeps _), fun _ _ never => by cases never⟩

def make (k : Kind) (c : Cell k) (data : k.isData = true := by rfl)
    (straight : Cell.Straight k c := by trivial) : Quiet (Ref k) :=
  ⟨create k c, fun w => .ofAlloc w c data straight, fun _ _ never => by cases never⟩

def spend (r : Ref .coroutine) : Quiet Unit := alter r fun c => { c with spent := true }

def note (n : Note) : Quiet Unit :=
  ⟨modify fun w => { w with notes := w.notes.push n }, fun _ => .ofHeapEq rfl rfl rfl rfl rfl,
    fun _ _ never => by cases never⟩

def log (level : LogLevel) (event : String) (fields : List (String × Value)) : Quiet Unit :=
  ⟨modify fun w =>
    let shown := fields.map fun f => (f.1, w.heap.briefView f.2)
    { w with notes := w.notes.push (.log level event shown) }, fun _ => .ofHeapEq rfl rfl rfl rfl rfl,
    fun _ _ never => by cases never⟩

def debug (event : String) (fields : List (String × Value)) : Quiet Unit :=
  log .debug event fields

def shown (v : Value) : Quiet String := do
  unless (← heap).hasText v do throw .missing
  return (← heap).shown v

def spoken (v : Value) : Quiet String := do
  unless (← heap).hasText v do throw .missing
  return (← heap).spoken v

def truthy (v : Value) : Quiet Bool := return (← heap).truthy v

def items (v : Value) : Quiet (List Value) := do
  match (← heap).items? v with
  | some vs => return vs
  | none => throw .typeMismatch

def key (v : Value) : Quiet Key := do
  match (← heap).key? v with
  | some k => return k
  | none => throw .typeMismatch

def newList (vs : List Value) : Quiet Value := return .obj .list (← make .list vs)

def newTuple (vs : List Value) : Quiet Value := return .obj .tuple (← make .tuple vs)

def newDict (d : Dict) : Quiet Value := return .obj .dict (← make .dict d)

def readMethod (k : Kind) (r : Ref k) (w : Word) : Quiet Value :=
  return .method k r w (← make .reading ())

def failure (f : Refusal) : Quiet (Ref .failure) := make .failure f.fault rfl f.straight

/-- How an edit ends, and the world after it. Its fault is raised as a new object. -/
def after {α : Type} (e : Edit α) (w : World) : Except (Ref .failure) α × World :=
  match e w with
  | (.ok a, v) => (.ok a, v)
  | (.error f, v) => (.error (v.heap.fresh .failure), { v with heap := v.heap.alloc .failure f })

def journal (e : Emission) : Edit Unit := modify fun w => { w with emitted := w.emitted ++ [e] }

def enqueue (j : Job) : Edit Unit := modify fun w => { w with ready := w.ready ++ [j] }

end Edit
end AsyncImport
