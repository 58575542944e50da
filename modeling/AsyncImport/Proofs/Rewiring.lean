import AsyncImport.Proofs.Building

/-!
# Changing the wait-for graph

The edges of a name are changed by the task that owns them and while it runs, when they do not count.
Nobody else can tell, and the state stays in order.
-/

namespace AsyncImport

theorem Waits.next_add_ne {w : Waits} {n k : Key} (ds : List Key) (ne : k ≠ n) :
    (w.add n ds).next k = w.next k := by
  unfold Waits.add Waits.next
  rw [Assoc.get?_insert, if_neg ne]

theorem Waits.next_add_nil (w : Waits) (n k : Key) : (w.add n []).next k = w.next k := by
  unfold Waits.add Waits.next
  rw [Assoc.get?_insert]
  split <;> simp_all

namespace Heap

variable {k : Kind} {h : Heap}

theorem set_set (r : Ref k) (c d : Cell k) : (h.set r c).set r d = h.set r d := by
  cases k <;> simp [set, setTable, table, Array.setIfInBounds_setIfInBounds]

theorem key?_set (r : Ref .loader) (c : Loader) (v : Value) : (h.set r c).key? v = h.key? v :=
  key?_of_tuples (show (h.set r c).table .tuple = h.table .tuple from rfl) v

theorem items?_set (r : Ref .loader) (c : Loader) (v : Value) :
    (h.set r c).items? v = h.items? v := by
  unfold items?
  split <;> rfl

end Heap

namespace Site

open Edit Relation

variable {S : Site} {u w v : World}

def rewired (S : Site) (w : World) (g : Waits) : World :=
  w.set S.loader { w.heap.get S.loader with waits := g }

section

variable (g : Waits)

theorem get_rewired {k : Kind} (r : Ref k) (ne : k ≠ .loader) :
    (S.rewired w g).heap.get r = w.heap.get r := World.get_set_kind _ ne

theorem waits_rewired (stands : S.Stands w) : S.waits (S.rewired w g) = g := by
  unfold Site.waits rewired
  rw [World.get_set _ _ _ stands.loader, if_pos rfl]

theorem items?_rewired (x : Value) : (S.rewired w g).heap.items? x = w.heap.items? x :=
  Heap.items?_set _ _ x

theorem key?_rewired (x : Value) : (S.rewired w g).heap.key? x = w.heap.key? x := Heap.key?_set _ _ x

theorem evolves_rewired (w : World) : w.Evolves (S.rewired w g) := .set w S.loader _ ⟨g, rfl⟩

theorem rewired_rewired (stands : S.Stands w) (f : Waits) :
    S.rewired (S.rewired w g) f = S.rewired w f := by
  unfold rewired
  rw [World.get_set _ _ _ stands.loader, if_pos rfl]
  unfold World.set
  rw [Heap.set_set]

theorem record?_rewired (k : Key) : S.record? (S.rewired w g) k = S.record? w k := by
  unfold record?
  rw [get_rewired g S.store (by decide)]

theorem loading_rewired {s : String} {t : Ref .future} :
    S.Loading (S.rewired w g) s t ↔ S.Loading w s t := by
  unfold Loading
  rw [record?_rewired]

theorem cached_rewired {s : String} : S.Cached (S.rewired w g) s ↔ S.Cached w s := by
  unfold Cached
  rw [get_rewired g S.manager (by decide)]

theorem task?_rewired (t : Ref .future) : (S.rewired w g).task? t = w.task? t := by
  unfold World.task?
  rw [get_rewired g t (by decide)]

theorem spares_rewired (t : Ref .future) : World.Spares t w (S.rewired w g) :=
  .ofGet (get_rewired g t (by decide))

theorem settles_rewired {t : Ref .future} {s : String} {x : Value} :
    S.Settles (S.rewired w g) t s x ↔ S.Settles w t s x := by
  unfold Settles
  rw [get_rewired g t (by decide)]

theorem loads_rewired {t : Ref .future} {s : String} :
    S.Loads (S.rewired w g) t s ↔ S.Loads w t s := by
  unfold Loads
  rw [get_rewired g t (by decide)]
  refine exists_congr fun d => ?_
  rw [get_rewired g d (by decide)]
  exact and_congr_right fun _ => and_congr_left fun _ => World.live_set

theorem owns_rewired {t : Ref .future} {s : String} :
    S.Owns (S.rewired w g) t s ↔ S.Owns w t s := by
  constructor
  · rintro (⟨loading, settles⟩ | ⟨loading, settles, loads⟩)
    · exact .fetching ((loading_rewired g).mp loading) ((settles_rewired g).mp settles)
    · exact .registered ((loading_rewired g).mp loading) ((settles_rewired g).mp settles)
        ((loads_rewired g).mp loads)
  · exact fun owns => owns.mono (evolves_rewired g w) (loading_rewired g).mpr

theorem awaits_rewired {s d : String} (awaits : S.Awaits (S.rewired w g) s d) : S.Awaits w s d := by
  obtain ⟨t, f, members, m, x, owns, for_, among, mem, waiting, settles⟩ := awaits
  rw [get_rewired g _ (by decide)] at for_ among waiting
  exact ⟨t, f, members, m, x, (owns_rewired g).mp owns, for_, among, mem, waiting,
    (settles_rewired g).mp settles⟩

end

section

variable {t : Ref .future} {s : String} {g : Waits} (owns : S.Owns w t s)
  (others : ∀ k, k ≠ .text s → g.next k = (S.waits w).next k)
include owns others

theorem rely_rewired (stands : S.Stands w) {r : Ref .future} (other : r ≠ t) :
    S.Rely r w (S.rewired w g) := by
  refine ⟨fun {n} owned => ⟨(owns_rewired g).mpr owned, ?_⟩, loading_rewired g⟩
  unfold Site.next
  rw [waits_rewired g stands]
  refine others _ fun same => other ?_
  obtain rfl : n = s := by simpa using same
  exact owned.owner owns

variable (own : w.current = some t)
include own

theorem Tidy.rewired (tidy : S.Tidy w) (task : w.task? t ≠ none) : S.Tidy (S.rewired w g) := by
  have evolves := evolves_rewired (S := S) g w
  have undone (u : Ref .future) (task : w.task? u ≠ none) : (S.rewired w g).task? u ≠ none := by
    rwa [task?_rewired]
  have waits := waits_rewired g tidy.stands
  refine
    { stands := tidy.stands.mono evolves
      calm := fun {r a f c} waiting origin => ?_
      errands := fun {r a} task => ?_
      records := fun {k r} found => ?_
      settling := fun {r name work markLoaded report} task => ?_
      loading := fun {r draft} task => ?_
      edges := fun {k} some => ?_
      acyclic := fun k cycle => tidy.acyclic k (TransGen.mono (fun a b edge => ?_) k k cycle)
      wired := World.wired_set S.loader _ (by decide) tidy.wired
      blocked := fun {r f} task other for_ => ?_ }
  · rw [get_rewired g r (by decide)] at waiting origin
    exact tidy.calm waiting origin
  · rw [task?_rewired] at task
    exact (tidy.errands task).mono evolves
  · rw [record?_rewired] at found
    obtain ⟨n, name, sound⟩ := tidy.records found
    exact ⟨n, name, sound.mono evolves undone⟩
  · rw [task?_rewired] at task
    obtain ⟨n, name, work, loading⟩ := tidy.settling task
    exact ⟨n, name, work.mono evolves, loading.imp_left (loading_rewired g).mpr⟩
  · rw [task?_rewired] at task
    obtain ⟨n, owned⟩ := tidy.loading task
    exact ⟨n, (owns_rewired g).mpr owned⟩
  · rw [waits] at some
    by_cases same : k = .text s
    · exact ⟨s, t, same, (owns_rewired g).mpr owns, undone t task⟩
    · rw [others k same] at some
      obtain ⟨n, r, name, owned, task⟩ := tidy.edges some
      exact ⟨n, r, name, (owns_rewired g).mpr owned, undone r task⟩
  · obtain ⟨edge, aside, counts⟩ := edge
    have same : a ≠ .text s := fun is => aside t s own is ((owns_rewired g).mpr owns)
    unfold Waits.Edge at edge
    rw [waits, others a same] at edge
    refine ⟨edge, fun r n is name owned => aside r n is name ((owns_rewired g).mpr owned),
      fun d is cached => ?_⟩
    obtain ⟨n, name, awaits⟩ := counts d is ((cached_rewired g).mpr cached)
    exact ⟨n, name, awaits_rewired g awaits⟩
  · have ne : r ≠ t := fun same => other (same ▸ own)
    rw [task?_rewired] at task
    rw [get_rewired g r (by decide)] at for_
    exact (tidy.blocked task other for_).mono evolves
      (rely_rewired owns others tidy.stands ne)

theorem Orderly.rewired (orderly : S.Orderly w) : S.Orderly (S.rewired w g) where
  tidy := orderly.tidy.rewired owns others own (orderly.runs t own).task?
  runs r is := (orderly.runs r is).ofSpares (spares_rewired g r)

theorem fair_rewired {host : Host} :
    (S.protocol host).Fair w (S.rewired w g) where
  evolves := evolves_rewired g w
  current := rfl
  spares r _ := spares_rewired g r
  rely r other _ stands :=
    ⟨stands.mono (evolves_rewired g w), rely_rewired owns others stands fun same => other (same ▸ own)⟩
  born r none task := by
    rw [task?_rewired] at task
    exact absurd none task

end

/-! ## Noting what a name waits for -/

theorem run_each {xs : List Value} {s : String} (stands : S.Stands w) (g : Waits)
    (keyed : ∀ x ∈ xs, w.heap.key? x ≠ none) : ∃ f, (forM xs fun d => do
      let j ← key d
      update S.loader fun c => { c with waits := c.waits.add (.text s) [j] } : Edit Unit)
        (S.rewired w g) = (.ok (), S.rewired w f) ∧
      (∀ k, k ≠ .text s → f.next k = g.next k) ∧
      ∀ j, j ∈ f.next (.text s) ↔ j ∈ g.next (.text s) ∨ ∃ x ∈ xs, w.heap.key? x = some j := by
  induction xs generalizing g with
  | nil => exact ⟨g, rfl, fun _ _ => rfl, fun j => by simp⟩
  | cons x xs ih =>
    obtain ⟨k, known⟩ := Option.ne_none_iff_exists'.mp (keyed x List.mem_cons_self)
    obtain ⟨f, run, others, edges⟩ :=
      ih (g.add (.text s) [k]) fun y mem => keyed y (List.mem_cons_of_mem _ mem)
    have same : (S.rewired w g).heap.key? x = some k := (key?_rewired g x).trans known
    have step : (S.rewired w g).set S.loader { (S.rewired w g).heap.get S.loader with
        waits := ((S.rewired w g).heap.get S.loader).waits.add (.text s) [k] } =
        S.rewired w (g.add (.text s) [k]) := by
      have waits : ((S.rewired w g).heap.get S.loader).waits = g := waits_rewired g stands
      rw [waits]
      exact rewired_rewired g stands _
    refine ⟨f, ?_, fun j ne => (others j ne).trans (Waits.next_add_ne _ ne), fun j => ?_⟩
    · rw [List.forM_cons, run_bind]
      simp only [run_bind, run_lift, key, Quiet.run_bind, Quiet.run_heap, same, Quiet.run_pure,
        run_pure, run_update, step]
      exact run
    · have added : j ∈ (g.add (.text s) [k]).next (.text s) ↔ j ∈ g.next (.text s) ∨ j = k := by
        have grown : (g.add (.text s) [k]).Edge (.text s) j ↔ _ := Waits.edge_add
        simpa [Waits.Edge] using grown
      rw [edges, added]
      simp only [List.mem_cons, exists_eq_or_imp, known, Option.some.injEq, or_assoc]
      exact or_congr_right (or_congr_left ⟨Eq.symm, Eq.symm⟩)

theorem run_startWaiting {s : String} (deps : Value) (stands : S.Stands w)
    (keyed : ∀ xs, w.heap.items? deps = some xs → ∀ x ∈ xs, w.heap.key? x ≠ none) :
    ∃ o g, Loader.startWaiting S.loader (.str s) deps w = (o, S.rewired w g) ∧
      (∀ k, k ≠ .text s → g.next k = (S.waits w).next k) ∧
      (∀ f, o = .error f → w.heap.items? deps = none ∧ g.next (.text s) = S.next w s) ∧
      (o = .ok () → ∃ xs, w.heap.items? deps = some xs ∧
        ∀ j, j ∈ g.next (.text s) ↔ j ∈ S.next w s ∨ ∃ x ∈ xs, w.heap.key? x = some j) := by
  have begun : (update S.loader fun c => { c with waits := c.waits.add (.text s) [] } : Edit Unit) w =
      (.ok (), S.rewired w ((S.waits w).add (.text s) [])) := rfl
  have nothing := Waits.next_add_nil (S.waits w) (.text s)
  have same := items?_rewired (S := S) (w := w) ((S.waits w).add (.text s) []) deps
  unfold Loader.startWaiting
  simp only [run_bind, run_lift, run_key_str, begun, items, Quiet.run_bind, Quiet.run_heap, same]
  cases known : w.heap.items? deps with
  | none => exact ⟨_, _, rfl, fun k _ => nothing k, fun f _ => ⟨rfl, nothing _⟩, fun ok => by cases ok⟩
  | some xs =>
    obtain ⟨f, each, others, edges⟩ :=
      run_each (s := s) stands ((S.waits w).add (.text s) []) (keyed xs known)
    refine ⟨_, f, each, fun k ne => (others k ne).trans (nothing k), by simp,
      fun _ => ⟨xs, rfl, fun j => ?_⟩⟩
    rw [edges j, nothing]
    rfl

theorem run_stopWaiting (s : String) (w : World) : Loader.stopWaiting S.loader (.str s) w =
    (.ok (), S.rewired w ((S.waits w).remove (.text s))) := rfl

end Site
end AsyncImport
