import AsyncImport.Value.Key

/-!
# The wait-for graph

Which names a name is waiting for. `Waits.path?` looks for a path by depth-first search with an
explicit stack of paths; a node is marked when it is taken from the stack.
-/

namespace AsyncImport

/-- For each waiting name, the names that it waits for, in order of arrival. -/
structure Waits where
  edges : Assoc Key (List Key) := {}
  deriving DecidableEq, Repr, Inhabited

namespace Waits

def next (w : Waits) (n : Key) : List Key := (w.edges.get? n).getD []

def add (w : Waits) (n : Key) (ds : List Key) : Waits :=
  let old := w.next n
  ⟨w.edges.insert n (ds.foldl (fun ks d => if d ∈ ks then ks else ks ++ [d]) old)⟩

def remove (w : Waits) (n : Key) : Waits := ⟨w.edges.erase n⟩

def nodes (w : Waits) : List Key :=
  w.edges.keys ++ w.edges.values.flatten

/-- Paths still to be followed, each with its last node first, and the nodes already marked. -/
structure Search where
  stack : List (List Key)
  seen : List Key
  deriving DecidableEq, Repr

/-- One step of the search: the answer, or the search that remains. -/
def Search.step (w : Waits) (target : Key) (s : Search) : Search ⊕ Option (List Key) :=
  match s.stack with
  | [] => .inr none
  | [] :: rest => .inl { s with stack := rest }
  | (n :: path) :: rest =>
    if n = target then .inr (some (n :: path).reverse)
    else if n ∈ s.seen then .inl { s with stack := rest }
    else .inl ⟨((w.next n).map fun d => d :: n :: path).reverse ++ rest, n :: s.seen⟩

def Search.run (w : Waits) (target : Key) : Nat → Search → Option (List Key)
  | 0, _ => none
  | fuel + 1, s =>
    match s.step w target with
    | .inr answer => answer
    | .inl s => s.run w target fuel

/-- A bound on the steps of a search: each node is expanded once and pushed once per edge. -/
def bound (w : Waits) : Nat := w.nodes.length + 2

def path? (w : Waits) (start target : Key) : Option (List Key) :=
  Search.run w target w.bound ⟨[[start]], []⟩

end Waits
end AsyncImport
