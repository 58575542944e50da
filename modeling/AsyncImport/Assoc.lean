/-!
# Finite maps in insertion order

A key keeps its place when its value is replaced, and goes to the end when it is new. `get?` is the
view of a map: `get?_insert` and `get?_erase` say what each operation does to it, and `keys_insert`
what happens to the order.
-/

namespace AsyncImport

structure Assoc (κ ν : Type) where
  entries : List (κ × ν) := []
  deriving DecidableEq, Repr

namespace Assoc

variable {κ ν : Type} [DecidableEq κ]

instance : Inhabited (Assoc κ ν) := ⟨{}⟩

def keys (m : Assoc κ ν) : List κ := m.entries.map Prod.fst

def values (m : Assoc κ ν) : List ν := m.entries.map Prod.snd

def size (m : Assoc κ ν) : Nat := m.entries.length

def get? (m : Assoc κ ν) (k : κ) : Option ν := m.entries.lookup k

def contains (m : Assoc κ ν) (k : κ) : Bool := (m.get? k).isSome

def insertEntry (k : κ) (v : ν) : List (κ × ν) → List (κ × ν)
  | [] => [(k, v)]
  | e :: es => if e.1 = k then (k, v) :: es else e :: insertEntry k v es

def insert (m : Assoc κ ν) (k : κ) (v : ν) : Assoc κ ν := ⟨insertEntry k v m.entries⟩

def erase (m : Assoc κ ν) (k : κ) : Assoc κ ν := ⟨m.entries.filter fun e => e.1 ≠ k⟩

def ofList (es : List (κ × ν)) : Assoc κ ν := es.foldl (fun m e => m.insert e.1 e.2) {}

def mapValues {μ : Type} (f : ν → μ) (m : Assoc κ ν) : Assoc κ μ :=
  ⟨m.entries.map fun e => (e.1, f e.2)⟩

@[simp] theorem get?_empty (k : κ) : ({} : Assoc κ ν).get? k = none := rfl

theorem lookup_cons (e : κ × ν) (es : List (κ × ν)) (k : κ) :
    (e :: es).lookup k = if k = e.1 then some e.2 else es.lookup k := by
  obtain ⟨l, v⟩ := e
  by_cases h : k = l
  · simp [h]
  · simp [List.lookup_cons, h, beq_eq_false_iff_ne.mpr h]

theorem lookup_insertEntry (k l : κ) (v : ν) (es : List (κ × ν)) :
    (insertEntry k v es).lookup l = if l = k then some v else es.lookup l := by
  induction es with
  | nil => simp [insertEntry, lookup_cons]
  | cons e es ih => by_cases he : e.1 = k <;> grind [insertEntry, lookup_cons]

@[grind =] theorem get?_insert (m : Assoc κ ν) (k l : κ) (v : ν) :
    (m.insert k v).get? l = if l = k then some v else m.get? l :=
  lookup_insertEntry k l v m.entries

@[simp] theorem get?_insert_self (m : Assoc κ ν) (k : κ) (v : ν) :
    (m.insert k v).get? k = some v := by
  simp [get?_insert]

theorem get?_insert_ne (m : Assoc κ ν) {k l : κ} (v : ν) (ne : l ≠ k) :
    (m.insert k v).get? l = m.get? l := by
  simp [get?_insert, ne]

@[grind =] theorem get?_erase (m : Assoc κ ν) (k l : κ) :
    (m.erase k).get? l = if l = k then none else m.get? l := by
  unfold erase get?
  induction m.entries with
  | nil => simp
  | cons e es ih => by_cases he : e.1 = k <;> grind [lookup_cons]

theorem contains_insert (m : Assoc κ ν) (k l : κ) (v : ν) :
    (m.insert k v).contains l = (l = k || m.contains l) := by
  unfold contains
  by_cases h : l = k <;> simp [get?_insert, h]

theorem keys_insert (m : Assoc κ ν) (k : κ) (v : ν) :
    (m.insert k v).keys = if k ∈ m.keys then m.keys else m.keys ++ [k] := by
  unfold insert keys
  induction m.entries with
  | nil => simp [insertEntry]
  | cons e es ih =>
    by_cases he : e.1 = k
    · simp [insertEntry, he]
    · grind [insertEntry]

end Assoc
end AsyncImport
