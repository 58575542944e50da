import AsyncImport.Proofs.Validation

/-!
# Completed tables

A table that was completed lacks nothing: it is returned as it is when it is validated again, unless one of
its values is refused. That may be a default, because the declaration of a field leaves out two of the checks
that values undergo.
-/

namespace AsyncImport

open Edit

/-! ## Fields -/

namespace Field

variable {f : Field} {d : Data}

theorem validate_eq_ok : f.validate d = .ok () ↔
    (d.isA f.type ∧ (f.type ≠ .bool → d.isA .bool = false)) ∧ (∀ cs, f.choices? = some cs → d.isAmong cs) ∧
      (f.isBounded → f.checkLength d = .ok ()) := by
  have typed : (!d.isA f.type || (f.type ≠ .bool && d.isA .bool)) = false ↔
      d.isA f.type ∧ (f.type ≠ .bool → d.isA .bool = false) := by simp
  rw [← typed]
  unfold validate
  cases (!d.isA f.type || (f.type ≠ .bool && d.isA .bool)) with
  | true => exact ⟨nofun, fun fits => nomatch fits.1⟩
  | false =>
    have length : (if f.isBounded then f.checkLength d else pure () : Except Fault Unit) = .ok () ↔
        (f.isBounded → f.checkLength d = .ok ()) := by
      split
      · next bounded => exact ⟨fun fits _ => fits, fun fits => fits bounded⟩
      · next free => exact ⟨fun _ bounded => absurd bounded free, fun _ => rfl⟩
    cases f.choices? with
    | none => exact ⟨fun fits => ⟨rfl, nofun, length.mp fits⟩, fun fits => length.mpr fits.2.2⟩
    | some cs =>
      dsimp only
      cases among : d.isAmong cs with
      | true =>
        refine ⟨fun fits => ⟨rfl, ?_, length.mp fits⟩, fun fits => length.mpr fits.2.2⟩
        rintro _ ⟨⟩
        exact among
      | false => exact ⟨nofun, fun fits => nomatch (fits.2.1 cs rfl).symm.trans among⟩

theorem default_of_check (declared : f.check = .ok ()) :
    f.default.isA f.type ∧ ∀ cs, f.choices? = some cs → f.default.isAmong cs := by
  unfold check at declared
  cases typed : f.default.isA f.type with
  | false =>
    rw [typed] at declared
    cases declared
  | true =>
    cases bounds : f.isBounded || (f.min.isNone && f.max.isNone) with
    | false =>
      rw [typed, bounds] at declared
      cases declared
    | true =>
      rw [typed, bounds] at declared
      refine ⟨rfl, fun cs known => ?_⟩
      unfold choices? at known
      split at known <;> cases known
      case h_1 is =>
        cases odd : cs.find? fun c => !c.isA f.type with
        | some c =>
          simp only [is, odd] at declared
          cases declared
        | none =>
          cases among : f.default.isAmong cs with
          | true => rfl
          | false =>
            simp only [is, odd, among] at declared
            cases declared
      case h_2 is =>
        rw [is] at declared
        cases declared

/-- The default of a declared field is valid unless it is a truth value in place of an integer, or too short or
long. -/
theorem default_valid (declared : f.check = .ok ()) : f.validate f.default = .ok () ↔
    (f.type ≠ .bool → f.default.isA .bool = false) ∧ (f.isBounded → f.checkLength f.default = .ok ()) := by
  obtain ⟨typed, among⟩ := default_of_check declared
  rw [validate_eq_ok]
  exact ⟨fun fits => ⟨fits.1.2, fits.2.2⟩, fun fits => ⟨⟨typed, fits.1⟩, among, fits.2⟩⟩

end Field

/-! ## Tables of the same names -/

namespace Dict

variable {c d : Dict} {k : Key} {label x : Value}

def spelling (c : Dict) : List (Key × Value) := c.entries.map fun e => (e.1, e.2.1)

theorem keys_of_spelling (c : Dict) : c.keys = c.spelling.map Prod.fst := by
  unfold Assoc.keys spelling
  rw [List.map_map]
  rfl

theorem put_at {before after : List (Key × Value × Value)} {y : Value} (absent : ∀ e ∈ before, e.1 ≠ k)
    (l : Value) : put ⟨before ++ (k, label, y) :: after⟩ k l x = ⟨before ++ (k, label, x) :: after⟩ := by
  have known : Assoc.get? (⟨before ++ (k, label, y) :: after⟩ : Dict) k = some (label, y) := by
    unfold Assoc.get?
    induction before with
    | nil => exact (Assoc.lookup_cons _ _ _).trans (if_pos rfl)
    | cons e before ih =>
      rw [List.cons_append, Assoc.lookup_cons, if_neg (Ne.symm (absent e List.mem_cons_self))]
      exact ih fun f mem => absent f (List.mem_cons_of_mem _ mem)
  unfold put Assoc.insert
  rw [known]
  congr 1
  clear known
  induction before with
  | nil => exact if_pos rfl
  | cons e before ih =>
    rw [List.cons_append, Assoc.insertEntry, if_neg (absent e List.mem_cons_self),
      ih fun f mem => absent f (List.mem_cons_of_mem _ mem)]
    rfl

theorem exists_of_mem_keys (mem : k ∈ c.keys) : ∃ before label y after,
    c = ⟨before ++ (k, label, y) :: after⟩ ∧ ∀ e ∈ before, e.1 ≠ k := by
  obtain ⟨es⟩ := c
  unfold Assoc.keys at mem
  obtain ⟨ks, ls, split, absent⟩ := List.eq_append_cons_of_mem mem
  obtain ⟨before, rest, rfl, rfl, more⟩ := List.map_eq_append_iff.mp split
  obtain ⟨⟨_, label, y⟩, after, rfl, rfl, -⟩ := List.map_eq_cons_iff.mp more
  exact ⟨before, label, y, after, rfl, fun e there same => absent (same ▸ List.mem_map_of_mem there)⟩

theorem spelling_put_known (known : k ∈ c.keys) (l x : Value) : (c.put k l x).spelling = c.spelling := by
  obtain ⟨before, label, y, after, rfl, absent⟩ := exists_of_mem_keys known
  rw [put_at absent]
  unfold spelling
  simp only [List.map_append, List.map_cons]

theorem spelling_put_new (new : k ∉ c.keys) (l x : Value) : (c.put k l x).spelling = c.spelling ++ [(k, l)] := by
  have absent : c.get? k = none := by
    cases known : c.get? k with
    | none => rfl
    | some y => exact absurd (List.mem_map_of_mem (Assoc.mem_entries_of_get? known)) new
  unfold put Assoc.insert spelling
  rw [absent]
  clear absent
  obtain ⟨es⟩ := c
  unfold Assoc.keys at new
  induction es with
  | nil => rfl
  | cons e es ih =>
    obtain ⟨other, new⟩ := not_or.mp (mt List.mem_cons.mpr new)
    unfold Assoc.insertEntry
    rw [if_neg (Ne.symm other), List.map_cons, List.map_cons, ih new]
    rfl

def putAll (c : Dict) (es : List (Key × Value × Value)) : Dict := es.foldl (fun c e => c.put e.1 e.2.1 e.2.2) c

theorem spelling_putAll {es : List (Key × Value × Value)} (known : ∀ e ∈ es, e.1 ∈ c.keys) :
    (c.putAll es).spelling = c.spelling := by
  induction es generalizing c with
  | nil => rfl
  | cons e es ih =>
    have same := spelling_put_known (known e List.mem_cons_self) e.2.1 e.2.2
    refine (ih fun f mem => ?_).trans same
    rw [keys_of_spelling, same, ← keys_of_spelling]
    exact known f (List.mem_cons_of_mem _ mem)

theorem putAll_entries (distinct : d.keys.Nodup) (same : c.spelling = d.spelling) : c.putAll d.entries = d := by
  -- The entries that were put are in place; what is behind them still has the old values.
  have each (before old new : List (Key × Value × Value)) (distinct : (before ++ new).map Prod.fst |>.Nodup)
      (same : old.map (fun e => (e.1, e.2.1)) = new.map fun e => (e.1, e.2.1)) :
      putAll ⟨before ++ old⟩ new = ⟨before ++ new⟩ := by
    induction new generalizing before old with
    | nil =>
      obtain rfl := List.map_eq_nil_iff.mp same
      rfl
    | cons e new ih =>
      obtain ⟨f, old, rfl, first, rest⟩ := List.map_eq_cons_iff.mp same
      obtain ⟨k, label, x⟩ := e
      obtain ⟨_, _, y⟩ := f
      cases first
      have absent : ∀ e ∈ before, e.1 ≠ k := by
        rintro e mem rfl
        rw [List.map_append] at distinct
        exact (List.nodup_append.mp distinct).2.2 _ (List.mem_map_of_mem mem) _ List.mem_cons_self rfl
      have := ih (before ++ [(k, label, x)]) old (by rwa [List.append_assoc]) rest
      rw [List.append_assoc, List.append_assoc] at this
      unfold putAll
      rw [List.foldl_cons, put_at absent]
      exact this
  exact each [] c.entries d.entries distinct same

end Dict

/-! ## Copies and checks -/

namespace Edit

variable {α β γ : Type} {e : Edit α} {f : α → Edit β}

def Returns (e : Edit α) : Prop := ∀ w, ∃ a v, e w = (.ok a, v)

theorem returns_pure (a : α) : (pure a : Edit α).Returns := fun w => ⟨a, w, rfl⟩

theorem returns_bind (first : e.Returns) (next : ∀ a, (f a).Returns) : (e >>= f).Returns := by
  intro w
  obtain ⟨a, v, run⟩ := first w
  obtain ⟨b, u, rest⟩ := next a v
  exact ⟨b, u, by rw [run_bind, run]; exact rest⟩

theorem returns_mapM {f : γ → Edit α} (each : ∀ c, (f c).Returns) (cs : List γ) : (cs.mapM f).Returns := by
  induction cs with
  | nil => exact returns_pure []
  | cons c cs ih =>
    rw [List.mapM_cons]
    exact returns_bind (each c) fun a => returns_bind ih fun as => returns_pure (a :: as)

theorem returns_read {k : Kind} (r : Ref k) : (liftM (read r) : Edit (Cell k)).Returns := fun w => ⟨_, w, rfl⟩

theorem returns_copyWithin (n : Nat) (x : Value) : (copyWithin n x).Returns := by
  induction n generalizing x with
  | zero => exact returns_pure x
  | succ n ih =>
    unfold copyWithin
    split
    · exact returns_bind (returns_read _) fun xs => returns_bind (returns_mapM ih xs) fun ys w => ⟨_, _, rfl⟩
    · exact returns_bind (returns_read _) fun xs => returns_bind (returns_mapM ih xs) fun ys w => ⟨_, _, rfl⟩
    · refine returns_bind (returns_read _) fun d => returns_bind (returns_mapM (fun e => ?_) _) fun es w => ⟨_, _, rfl⟩
      exact returns_bind (ih _) fun y => returns_pure _
    · exact returns_pure x

theorem returns_copy (x : Value) : (copy x).Returns :=
  returns_bind (fun w => ⟨w.heap, w, rfl⟩) fun h => returns_copyWithin h.depth x

def Looks (e : Edit α) : Prop := ∀ w, (e w).2 = w

theorem looks_pure (a : α) : (pure a : Edit α).Looks := fun _ => rfl

theorem looks_throw (g : Fault) : (throw g : Edit α).Looks := fun _ => rfl

theorem looks_bind (first : e.Looks) (next : ∀ a, (f a).Looks) : (e >>= f).Looks := by
  intro w
  have same := first w
  rw [run_bind]
  rcases run : e w with ⟨g | a, v⟩ <;> rw [run] at same
  · exact same
  · exact (next a v).trans same

theorem looks_tryCatch {handle : Fault → Edit α} (looks : e.Looks) (handles : ∀ g, (handle g).Looks) :
    (tryCatch e handle).Looks := by
  intro w
  have same := looks w
  rw [run_tryCatch]
  rcases run : e w with ⟨g | a, v⟩ <;> rw [run] at same
  · exact (handles g v).trans same
  · exact same

theorem looks_heap : (liftM heap : Edit Heap).Looks := fun _ => rfl

theorem looks_spoken (x : Value) : (liftM (spoken x) : Edit String).Looks := by
  intro w
  rcases reads_spoken x w with ⟨_, -, run⟩ | ⟨-, _, run⟩
  · exact congrArg Prod.snd run
  · exact congrArg Prod.snd run

theorem forM_looks {f : γ → Edit Unit} (looks : ∀ c, (f c).Looks) (cs : List γ) (w : World) :
    (∀ c ∈ cs, f c w = (.ok (), w)) ∧ cs.forM f w = (.ok (), w) ∨
      ∃ c ∈ cs, ∃ g, f c w = (.error g, w) ∧ cs.forM f w = (.error g, w) := by
  induction cs with
  | nil => exact .inl ⟨nofun, rfl⟩
  | cons c cs ih =>
    have same := looks c w
    rw [run_forM_cons]
    rcases run : f c w with ⟨g | _, v⟩ <;> rw [run] at same <;> subst same
    · exact .inr ⟨c, List.mem_cons_self, g, run, rfl⟩
    · rcases ih with ⟨all, rest⟩ | ⟨d, mem, g, fails, rest⟩
      · exact .inl ⟨List.forall_mem_cons.mpr ⟨run, all⟩, rest⟩
      · exact .inr ⟨d, List.mem_cons_of_mem _ mem, g, fails, rest⟩

end Edit

/-! ## Completion -/

namespace Schema

variable {s : Schema} {t c d : Dict} {w v : World}

def spelling (s : Schema) : List (Key × Value) := s.map fun e => (e.1, e.2.1)

theorem keys_of_spelling (same : d.spelling = s.spelling) : d.keys = s.map Prod.fst := by
  rw [Dict.keys_of_spelling, same]
  unfold spelling
  rw [List.map_map]
  rfl

def known (s : Schema) (e : Key × Value × Value) : Edit Unit := do
  if (s.lookup e.1).isNone then throw (.validation (.unknownField (← spoken e.2.1)))

def judge (s : Schema) (e : Key × Value × Value) : Edit Unit := do
  match s.lookup e.1 with
  | some (_, f) => inField (← spoken e.2.1) (FieldRecord.validate f e.2.2)
  | none => throw (.plain .key)

theorem looks_known (s : Schema) (e : Key × Value × Value) : (s.known e).Looks := by
  unfold known
  split
  · exact looks_bind (looks_spoken _) fun _ => looks_throw _
  · exact looks_pure ()

theorem looks_liftExcept {α : Type} (x : Except Fault α) : (liftExcept x : Edit α).Looks := by
  intro w
  cases x <;> rfl

theorem looks_field (r : FieldRecord) : r.field.Looks := by
  unfold FieldRecord.field
  refine looks_bind looks_heap fun h => ?_
  split
  · exact looks_pure _
  · exact looks_throw _

theorem looks_judge (s : Schema) (e : Key × Value × Value) : (s.judge e).Looks := by
  unfold judge
  split
  · refine looks_bind (looks_spoken _) fun n => looks_tryCatch ?_ fun g => ?_
    · unfold FieldRecord.validate
      exact looks_bind (fun _ => rfl) fun r => looks_bind (looks_field r) fun f =>
        looks_bind looks_heap fun h => looks_liftExcept _
    · split <;> exact looks_throw _
  · exact looks_throw _

/-- A default that was filled in is valid unless it is a truth value in place of an integer, or too short or
long. -/
theorem judge_default {e : Key × Value × Value} {label : Value} {r : Ref .field} {f : Field}
    (declared : s.lookup e.1 = some (label, r)) (field : (w.heap.get r).field w = (.ok f, w))
    (checked : f.check = .ok ()) (default : w.heap.data e.2.2 = f.default) (told : ¬ w.heap.Mute e.2.1) :
    s.judge e w = (.ok (), w) ↔
      (f.type ≠ .bool → f.default.isA .bool = false) ∧ (f.isBounded → f.checkLength f.default = .ok ()) := by
  have run : FieldRecord.validate r e.2.2 w = (f.validate f.default, w) := by
    unfold FieldRecord.validate
    simp only [run_bind, run_lift, Quiet.run_read, field, Quiet.run_heap, default]
    cases f.validate f.default <;> rfl
  rw [← Field.default_valid checked]
  unfold judge inField
  rw [declared]
  dsimp only
  rw [run_bind, run_lift, spoken_told told]
  dsimp only
  rw [run_tryCatch, run]
  cases f.validate f.default with
  | ok _ => exact ⟨fun _ => rfl, fun _ => rfl⟩
  | error g =>
    refine ⟨fun valid => ?_, nofun⟩
    dsimp only at valid
    split at valid <;> cases valid

/-- The names are checked and the defaults filled in; then the values are checked and taken over. -/
theorem complete_eq (s : Schema) (t : Dict) : s.complete t = (do
    t.entries.forM s.known
    let c ← s.defaults
    t.entries.forM s.judge
    return c.putAll t.entries) := by
  unfold complete
  refine bind_congr fun _ => bind_congr fun c => ?_
  induction t.entries generalizing c with
  | nil => rfl
  | cons e es ih =>
    have head : (do
        match s.lookup e.1 with
        | some (_, f) => inField (← spoken e.2.1) (FieldRecord.validate f e.2.2)
        | none => throw (.plain .key)
        return c.put e.1 e.2.1 e.2.2 : Edit Dict) = (do s.judge e; return c.put e.1 e.2.1 e.2.2) := by
      unfold judge
      cases s.lookup e.1 with
      | none => exact bind_congr fun _ => rfl
      | some f => exact (bind_assoc _ _ _).symm
    rw [List.foldlM_cons]
    refine (congrArg (· >>= _) head).trans ?_
    dsimp only
    rw [bind_assoc, show (e :: es).forM s.judge = s.judge e >>= fun _ => es.forM s.judge from rfl, bind_assoc]
    exact bind_congr fun _ => (pure_bind _ _).trans (ih _)

theorem defaults_spelling (distinct : (s.map Prod.fst).Nodup) (w : World) :
    ∃ c v, s.defaults w = (.ok c, v) ∧ c.spelling = s.spelling := by
  -- The names of the fields follow those that are there already.
  have each (s : Schema) (c : Dict) (w : World) (new : ∀ e ∈ s, e.1 ∉ c.keys) (distinct : (s.map Prod.fst).Nodup) :
      ∃ d v, (s.foldlM (fun (d : Dict) (f : Key × Value × Ref .field) => do
        return d.put f.1 f.2.1 (← copy (← read f.2.2).default)) c : Edit Dict) w = (.ok d, v) ∧
          d.spelling = c.spelling ++ s.spelling := by
    induction s generalizing c w with
    | nil => exact ⟨c, w, rfl, (List.append_nil _).symm⟩
    | cons e s ih =>
      obtain ⟨absent, distinct⟩ := List.nodup_cons.mp distinct
      obtain ⟨y, u, copied⟩ := returns_copy (w.heap.get e.2.2).default w
      have first := Dict.spelling_put_new (new e List.mem_cons_self) e.2.1 y
      have later : ∀ f ∈ s, f.1 ∉ (c.put e.1 e.2.1 y).keys := by
        intro f mem
        rw [Dict.keys_of_spelling, first, List.map_append, ← Dict.keys_of_spelling, List.mem_append, not_or]
        refine ⟨new f (List.mem_cons_of_mem _ mem), fun same => absent ?_⟩
        have same : f.1 = e.1 := List.mem_singleton.mp same
        exact same ▸ List.mem_map_of_mem mem
      obtain ⟨d, v, rest, spelt⟩ := ih _ u later distinct
      refine ⟨d, v, ?_, ?_⟩
      · simpa only [List.foldlM_cons, run_bind, run_lift, Quiet.run_read, copied, run_pure] using rest
      · rw [spelt, first, List.append_assoc]
        rfl
  exact each s {} w (fun _ _ => List.not_mem_nil) distinct

theorem known_passes {e : Key × Value × Value} : s.known e w = (.ok (), w) ↔ e.1 ∈ s.map Prod.fst := by
  have declared : (s.lookup e.1).isSome ↔ e.1 ∈ s.map Prod.fst := by
    rw [List.lookup_isSome_iff, List.mem_map]
    exact exists_congr fun f => and_congr_right fun _ => beq_iff_eq.trans eq_comm
  rw [← declared]
  unfold known
  cases s.lookup e.1 with
  | some f => exact ⟨fun _ => rfl, fun _ => rfl⟩
  | none =>
    refine ⟨fun passes => ?_, nofun⟩
    obtain ⟨_, _, -, refused⟩ := bind_ok passes
    cases refused

theorem complete_spelling (distinct : (s.map Prod.fst).Nodup) (done : s.complete t w = (.ok d, v)) :
    d.spelling = s.spelling := by
  rw [complete_eq] at done
  obtain ⟨_, u, names, done⟩ := bind_ok done
  obtain ⟨c, x, filled, done⟩ := bind_ok done
  obtain ⟨_, y, -, done⟩ := bind_ok done
  cases done
  obtain ⟨_, _, also, spelt⟩ := defaults_spelling distinct u
  cases filled.symm.trans also
  refine (Dict.spelling_putAll fun e mem => ?_).trans spelt
  rw [keys_of_spelling spelt]
  rcases forM_looks (looks_known s) t.entries w with ⟨all, -⟩ | ⟨_, _, _, _, fails⟩
  · exact known_passes.mp (all e mem)
  · cases names.symm.trans fails

/-- A table that was completed is validated again as it is, now or later, or one of its values is refused. -/
theorem complete_again (distinct : (s.map Prod.fst).Nodup) (done : s.complete t w = (.ok d, v)) (u : World) :
    (∃ x, s.complete d u = (.ok d, x) ∧ ∀ e ∈ d.entries, s.judge e x = (.ok (), x)) ∨
      ∃ e ∈ d.entries, ∃ g x, s.complete d u = (.error g, x) ∧ s.judge e x = (.error g, x) := by
  have spelt := complete_spelling distinct done
  have keys := keys_of_spelling spelt
  obtain ⟨c, x, filled, same⟩ := defaults_spelling distinct u
  have run : s.complete d u = (do d.entries.forM s.judge; return d : Edit Dict) x := by
    have names : d.entries.forM s.known u = (.ok (), u) := by
      rcases forM_looks (looks_known s) d.entries u with ⟨-, run⟩ | ⟨e, mem, _, fails, -⟩
      · exact run
      · have passes : s.known e u = (.ok (), u) := known_passes.mpr (keys ▸ List.mem_map_of_mem mem)
        cases passes.symm.trans fails
    rw [complete_eq, run_bind, names]
    dsimp only
    rw [run_bind, filled]
    dsimp only
    rw [Dict.putAll_entries (keys ▸ distinct) (same.trans spelt.symm)]
  rw [run, run_bind]
  rcases forM_looks (looks_judge s) d.entries x with ⟨all, passes⟩ | ⟨e, mem, g, fails, refused⟩
  · rw [passes]
    exact .inl ⟨x, rfl, all⟩
  · rw [refused]
    exact .inr ⟨e, mem, g, x, rfl, fails⟩

end Schema
end AsyncImport
