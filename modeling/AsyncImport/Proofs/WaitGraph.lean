import AsyncImport.Loader.Waits
import Mathlib

/-!
# The wait-for graph

`Waits.path?` comes to an answer on every graph (`paths_found`): it finds paths without a name twice, and misses
none. A cycle of the graph that is new passes through the name whose edges are new.
-/

namespace AsyncImport.Waits

open Relation

def Edge (w : Waits) (a b : Key) : Prop := b ∈ w.next a

theorem mem_foldl_insert (ds ks : List Key) (d : Key) :
    d ∈ ds.foldl (fun ks d => if d ∈ ks then ks else ks ++ [d]) ks ↔ d ∈ ks ∨ d ∈ ds := by
  induction ds generalizing ks with
  | nil => simp
  | cons e es ih => by_cases known : e ∈ ks <;> grind

theorem edge_add {w : Waits} {n : Key} {ds : List Key} {a b : Key} :
    (w.add n ds).Edge a b ↔ w.Edge a b ∨ (a = n ∧ b ∈ ds) := by
  unfold Edge add next
  rw [Assoc.get?_insert]
  by_cases same : a = n
  · subst same
    simp [mem_foldl_insert]
  · simp [same]

theorem next_remove (w : Waits) (n a : Key) :
    (w.remove n).next a = if a = n then [] else w.next a := by
  unfold next remove
  rw [Assoc.get?_erase]
  split <;> rfl

/-! ## Searching -/

namespace Search

def Open (s : Search) (n : Key) : Prop := ∃ p ∈ s.stack, p.head? = some n

/-- What a search for a path has established so far: marked nodes lead to marked or open ones. -/
structure Explores (w : Waits) (start target : Key) (s : Search) : Prop where
  start : start ∈ s.seen ∨ s.Open start
  apart : target ∉ s.seen
  closed : ∀ n ∈ s.seen, ∀ d ∈ w.next n, d ∈ s.seen ∨ s.Open d

def left {κ : Type} [DecidableEq κ] (seen : List κ) (edges : List (κ × List κ)) : Nat :=
  ((edges.filter fun e => e.1 ∉ seen).map fun e => e.2.length).sum

def cost (w : Waits) (s : Search) : Nat := s.stack.length + left s.seen w.edges.entries

theorem left_mark {κ : Type} [DecidableEq κ] {n : κ} {seen : List κ} (new : n ∉ seen)
    (edges : List (κ × List κ)) :
    left (n :: seen) edges + ((edges.lookup n).getD []).length ≤ left seen edges := by
  unfold left
  induction edges with
  | nil => simp
  | cons e es ih =>
    rw [Assoc.lookup_cons]
    by_cases same : e.1 = n
    · have rest : ((es.filter fun e => e.1 ∉ n :: seen).map fun e => e.2.length).sum ≤
          ((es.filter fun e => e.1 ∉ seen).map fun e => e.2.length).sum := by omega
      have marked : e.1 ∉ seen := same ▸ new
      rw [if_pos same.symm, List.filter_cons_of_neg (by simp [same]),
        List.filter_cons_of_pos (by simpa using marked), List.map_cons, List.sum_cons,
        Option.getD_some]
      omega
    · rw [if_neg (Ne.symm same)]
      by_cases marked : e.1 ∈ seen
      · rw [List.filter_cons_of_neg (by simp [marked]), List.filter_cons_of_neg (by simp [marked])]
        exact ih
      · rw [List.filter_cons_of_pos (by simp [marked, same]),
          List.filter_cons_of_pos (by simp [marked])]
        simp only [List.map_cons, List.sum_cons]
        omega

variable {w : Waits} {start target : Key} {s t : Search} {answer : Option (List Key)} {p : List Key}

/-- A step that goes on drops a path whose last node is marked, or marks that node and opens a path for
each of its edges. -/
theorem step_inl (next : s.step w target = .inl t) :
    (∃ p rest, s.stack = p :: rest ∧ (∀ n ∈ p.head?, n ∈ s.seen) ∧ t = ⟨rest, s.seen⟩) ∨
    ∃ n path rest, s.stack = (n :: path) :: rest ∧ n ≠ target ∧ n ∉ s.seen ∧
      t = ⟨((w.next n).map fun d => d :: n :: path).reverse ++ rest, n :: s.seen⟩ := by
  obtain ⟨stack, seen⟩ := s
  unfold step at next
  match stack with
  | [] => cases next
  | [] :: rest =>
    cases next
    exact .inl ⟨[], rest, rfl, by simp, rfl⟩
  | (n :: path) :: rest =>
    dsimp only at next
    split at next
    · cases next
    · next other =>
      split at next
      · next marked =>
        cases next
        exact .inl ⟨n :: path, rest, rfl, by simpa using marked, rfl⟩
      · next fresh =>
        cases next
        exact .inr ⟨n, path, rest, rfl, other, fresh, rfl⟩

/-- A search ends when nothing is left to follow, or with the path that it has followed to the target. -/
theorem step_inr (ends : s.step w target = .inr answer) :
    s.stack = [] ∧ answer = none ∨
    ∃ path rest, s.stack = (target :: path) :: rest ∧ answer = some (target :: path).reverse := by
  obtain ⟨stack, seen⟩ := s
  unfold step at ends
  match stack with
  | [] =>
    cases ends
    exact .inl ⟨rfl, rfl⟩
  | [] :: rest => cases ends
  | (n :: path) :: rest =>
    dsimp only at ends
    split at ends
    · next is =>
      cases ends
      exact .inr ⟨path, rest, by rw [is], by rw [is]⟩
    · split at ends <;> cases ends

/-- The steps of a search come to an answer. -/
inductive Ends (w : Waits) (target : Key) : Search → Option (List Key) → Prop
  | here {s : Search} {answer : Option (List Key)} (ends : s.step w target = .inr answer) : Ends w target s answer
  | later {s t : Search} {answer : Option (List Key)} (next : s.step w target = .inl t)
      (rest : Ends w target t answer) : Ends w target s answer

/-! ## What is found in the end -/

/-- A step that goes on keeps what was established, and leaves less to do. -/
theorem Explores.step (explores : s.Explores w start target) (next : s.step w target = .inl t) :
    t.Explores w start target ∧ t.cost w < s.cost w := by
  obtain ⟨stack, seen⟩ := s
  obtain ⟨known, apart, closed⟩ := explores
  rcases step_inl next with ⟨p, rest, rfl, marked, rfl⟩ | ⟨n, path, rest, rfl, other, fresh, rfl⟩
  · have opened (d : Key) (open_ : d ∈ seen ∨ Open ⟨p :: rest, seen⟩ d) : d ∈ seen ∨ Open ⟨rest, seen⟩ d := by
      rcases open_ with h | ⟨q, mem, head⟩
      · exact .inl h
      rcases List.mem_cons.mp mem with rfl | mem
      · exact .inl (marked d head)
      · exact .inr ⟨q, mem, head⟩
    exact ⟨⟨opened _ known, apart, fun m mem d edge => opened _ (closed m mem d edge)⟩, by simp [cost]⟩
  · have opened (d : Key) (open_ : d ∈ seen ∨ Open ⟨(n :: path) :: rest, seen⟩ d) :
        d ∈ n :: seen ∨ Open ⟨((w.next n).map fun d => d :: n :: path).reverse ++ rest, n :: seen⟩ d := by
      rcases open_ with h | ⟨q, mem, head⟩
      · exact .inl (.tail _ h)
      rcases List.mem_cons.mp mem with rfl | mem
      · exact .inl (Option.some.inj head ▸ .head _)
      · exact .inr ⟨q, List.mem_append_right _ mem, head⟩
    refine ⟨⟨opened _ known, by simpa [apart] using Ne.symm other, fun m mem d edge => ?_⟩, ?_⟩
    · rcases List.mem_cons.mp mem with rfl | mem
      · exact .inr ⟨d :: m :: path, by simpa using .inl edge, rfl⟩
      · exact opened _ (closed m mem d edge)
    · have spent := left_mark (show n ∉ seen from fresh) w.edges.entries
      simp only [cost, List.length_append, List.length_reverse, List.length_map, List.length_cons]
      unfold Waits.next Assoc.get?
      omega

theorem Explores.ends {fuel : Nat} (explores : s.Explores w start target) (enough : s.cost w < fuel) :
    Ends w target s (s.run w target fuel) := by
  induction fuel generalizing s with
  | zero => omega
  | succ fuel ih =>
    rw [run]
    cases next : s.step w target with
    | inl t =>
      obtain ⟨later, less⟩ := explores.step next
      exact .later next (ih later (by omega))
    | inr answer => exact .here next

/-- A search that finds nothing shows that there is nothing. -/
theorem Explores.not_reaches (explores : s.Explores w start target) (ends : Ends w target s none) :
    ¬ ReflTransGen w.Edge start target := by
  generalize nothing : (none : Option (List Key)) = answer at ends
  induction ends with
  | later next _ ih => exact ih (explores.step next).1 nothing
  | @here s answer ends =>
    subst nothing
    obtain ⟨empty, -⟩ | ⟨path, rest, -, found⟩ := step_inr ends
    · have shut (n : Key) : ¬ s.Open n := by simp [Open, empty]
      intro reaches
      have seen : target ∈ s.seen :=
        reaches.rec (explores.start.resolve_right (shut _))
          fun _ edge known => (explores.closed _ known _ edge).resolve_right (shut _)
      exact explores.apart seen
    · cases found

def Traces (w : Waits) (start : Key) (s : Search) : Prop :=
  ∀ p ∈ s.stack, p ≠ [] → p.getLast? = some start ∧ p.IsChain fun b a => w.Edge a b

theorem Traces.step (traces : s.Traces w start) (next : s.step w target = .inl t) : t.Traces w start := by
  obtain ⟨stack, seen⟩ := s
  rcases step_inl next with ⟨p, rest, rfl, -, rfl⟩ | ⟨n, path, rest, rfl, -, -, rfl⟩
  · exact fun q mem => traces q (List.mem_cons_of_mem _ mem)
  · obtain ⟨last, chain⟩ := traces (n :: path) List.mem_cons_self (by simp)
    intro q mem some
    rcases List.mem_append.mp mem with new | old
    · obtain ⟨d, edge, rfl⟩ := List.mem_map.mp (List.mem_reverse.mp new)
      exact ⟨by rw [List.getLast?_cons_cons]; exact last, List.isChain_cons_cons.mpr ⟨edge, chain⟩⟩
    · exact traces q (List.mem_cons_of_mem _ old) some

theorem Traces.path (traces : s.Traces w start) (ends : Ends w target s (some p)) :
    p.head? = some start ∧ p.getLast? = some target ∧ p.IsChain w.Edge := by
  generalize found : some p = answer at ends
  induction ends with
  | later next _ ih => exact ih (traces.step next) found
  | here ends =>
    subst found
    obtain ⟨-, none⟩ | ⟨path, rest, top, is⟩ := step_inr ends
    · cases none
    · cases is
      obtain ⟨last, chain⟩ := traces (target :: path) (by simp [top]) (by simp)
      refine ⟨?_, ?_, List.isChain_reverse.mpr chain⟩
      · rw [List.head?_reverse, last]
      · rw [List.getLast?_reverse, List.head?_cons]

/-- The nodes before the last of a path that is still to be followed are marked, each of them once on the
path, and the target is not. The last node may be one of them, as long as the path waits on the stack. -/
structure Simple (target : Key) (s : Search) : Prop where
  apart : target ∉ s.seen
  marked : ∀ p ∈ s.stack, ∀ n ∈ p.tail, n ∈ s.seen
  distinct : ∀ p ∈ s.stack, p.tail.Nodup

theorem Simple.step (simple : s.Simple target) (next : s.step w target = .inl t) : t.Simple target := by
  obtain ⟨stack, seen⟩ := s
  obtain ⟨apart, marked, distinct⟩ := simple
  rcases step_inl next with ⟨p, rest, rfl, -, rfl⟩ | ⟨n, path, rest, rfl, other, fresh, rfl⟩
  · exact ⟨apart, fun q mem => marked q (List.mem_cons_of_mem _ mem),
      fun q mem => distinct q (List.mem_cons_of_mem _ mem)⟩
  · have before : ∀ m ∈ path, m ∈ seen := marked (n :: path) List.mem_cons_self
    have once : path.Nodup := distinct (n :: path) List.mem_cons_self
    refine ⟨by simpa [apart] using Ne.symm other, fun q mem => ?_, fun q mem => ?_⟩
    · rcases List.mem_append.mp mem with new | old
      · obtain ⟨d, -, rfl⟩ := List.mem_map.mp (List.mem_reverse.mp new)
        intro m on
        exact (List.mem_cons.mp on).elim (fun is => is ▸ .head _) fun on => .tail _ (before m on)
      · exact fun m on => .tail _ (marked q (List.mem_cons_of_mem _ old) m on)
    · rcases List.mem_append.mp mem with new | old
      · obtain ⟨d, -, rfl⟩ := List.mem_map.mp (List.mem_reverse.mp new)
        exact List.nodup_cons.mpr ⟨fun on => fresh (before n on), once⟩
      · exact distinct q (List.mem_cons_of_mem _ old)

theorem Simple.nodup (simple : s.Simple target) (ends : Ends w target s (some p)) : p.Nodup := by
  generalize found : some p = answer at ends
  induction ends with
  | later next _ ih => exact ih (simple.step next) found
  | here ends =>
    subst found
    obtain ⟨-, none⟩ | ⟨path, rest, top, is⟩ := step_inr ends
    · cases none
    · cases is
      have mem : target :: path ∈ _ := top ▸ List.mem_cons_self
      have fresh : target ∉ path := fun on => simple.apart (simple.marked _ mem target on)
      exact List.nodup_reverse.mpr (List.nodup_cons.mpr ⟨fresh, simple.distinct _ mem⟩)

end Search

section

variable {w : Waits} {start target : Key}

theorem explores_start : (⟨[[start]], []⟩ : Search).Explores w start target :=
  ⟨.inr ⟨[start], by simp, rfl⟩, by simp, by simp⟩

theorem ends_path? (w : Waits) (start target : Key) :
    Search.Ends w target ⟨[[start]], []⟩ (w.path? start target) := by
  have explores : (⟨[[start]], []⟩ : Search).Explores w start target := explores_start
  refine explores.ends ?_
  have all (edges : List (Key × List Key)) :
      Search.left [] edges = ((edges.map Prod.snd).flatten).length := by
    rw [Search.left, List.filter_eq_self.mpr (by simp), List.length_flatten, List.map_map]
    rfl
  simp only [Search.cost, all, bound, nodes, Assoc.values, List.length_append, List.length_cons,
    List.length_nil]
  omega

/-- The search misses no path. -/
theorem not_reaches_of_path?_none (nothing : w.path? start target = none) :
    ¬ ReflTransGen w.Edge start target :=
  explores_start.not_reaches (nothing ▸ ends_path? w start target)

theorem path_of_path?_some {p : List Key} (found : w.path? start target = some p) :
    p.head? = some start ∧ p.getLast? = some target ∧ p.IsChain w.Edge := by
  refine Search.Traces.path (s := ⟨[[start]], []⟩) (fun q mem _ => ?_) (found ▸ ends_path? w start target)
  obtain rfl := List.mem_singleton.mp mem
  exact ⟨rfl, .singleton _⟩

/-- It passes through no name twice. -/
theorem nodup_of_path?_some {p : List Key} (found : w.path? start target = some p) : p.Nodup := by
  have simple : (⟨[[start]], []⟩ : Search).Simple target := ⟨by simp, by simp, by simp⟩
  exact simple.nodup (found ▸ ends_path? w start target)

theorem reaches_of_path {p : List Key} (head : p.head? = some start) (last : p.getLast? = some target)
    (chain : p.IsChain w.Edge) : ReflTransGen w.Edge start target := by
  have some : p ≠ [] := by
    rintro rfl
    cases head
  have reaches := List.relationReflTransGen_of_exists_isChain p chain some
  rwa [List.head_of_mem_head? head, List.getLast_of_mem_getLast? last] at reaches

end

/-- Whatever the names wait for, cycles included, and in whatever order they are listed: the search ends, finds
nothing if and only if the target is out of reach, and otherwise a path that repeats no name. -/
theorem paths_found (w : Waits) (start target : Key) :
    Search.Ends w target ⟨[[start]], []⟩ (w.path? start target) ∧
    (w.path? start target = none ↔ ¬ ReflTransGen w.Edge start target) ∧
    ∀ p ∈ w.path? start target,
      p.head? = some start ∧ p.getLast? = some target ∧ p.IsChain w.Edge ∧ p.Nodup := by
  refine ⟨ends_path? w start target, ⟨not_reaches_of_path?_none, fun apart => ?_⟩, fun p found => ?_⟩
  · cases found : w.path? start target with
    | none => rfl
    | some p =>
      obtain ⟨head, last, chain⟩ := path_of_path?_some found
      exact absurd (reaches_of_path head last chain) apart
  · obtain ⟨head, last, chain⟩ := path_of_path?_some found
    exact ⟨head, last, chain, nodup_of_path?_some found⟩

/-! ## Cycles -/

theorem split_path {r : Key → Key → Prop} {n a b : Key} (path : TransGen r a b) :
    TransGen (fun a b => a ≠ n ∧ r a b) a b ∨
      ∃ d, ReflTransGen r a n ∧ r n d ∧ ReflTransGen r d b := by
  induction path with
  | single edge =>
    rename_i b
    by_cases from_ : a = n
    · subst from_
      exact .inr ⟨b, .refl, edge, .refl⟩
    · exact .inl (.single ⟨from_, edge⟩)
  | tail path edge ih =>
    rename_i b c
    rcases ih with apart | ⟨d, before, out, after⟩
    · by_cases from_ : b = n
      · subst from_
        exact .inr ⟨c, path.to_reflTransGen, edge, .refl⟩
      · exact .inl (apart.tail ⟨from_, edge⟩)
    · exact .inr ⟨d, before, out, after.tail edge⟩

/-- A cycle either avoids the edges out of a node or takes one that leads back to the node. -/
theorem split_cycle {r : Key → Key → Prop} {n a : Key} (cycle : TransGen r a a) :
    TransGen (fun a b => a ≠ n ∧ r a b) a a ∨ ∃ d, r n d ∧ ReflTransGen r d n := by
  rcases split_path (n := n) cycle with apart | ⟨d, before, out, after⟩
  · exact .inl apart
  · exact .inr ⟨d, out, after.trans before⟩

end AsyncImport.Waits
