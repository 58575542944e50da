import AsyncImport.Proofs.Documents
import AsyncImport.Proofs.Settings

/-!
# Settings in files

A file either holds settings or is refused as a matter of configuration, whatever is in it, as long as it is
text: bytes that are none are refused before anything is known of them.
-/

namespace AsyncImport

open Edit Toml

variable {h g : Heap} {w v : World} {x : Value} {c : Dict} {d : Data}

/-! ## Values of documents -/

inductive Heap.Stands (h : Heap) : Value → Prop
  | bool (b : Bool) : Stands h (.bool b)
  | int (i : Int) : Stands h (.int i)
  | real (x : Binary) : Stands h (.real x)
  | str (s : String) : Stands h (.str s)
  | moment (type shown spoken : String) : Stands h (.moment type shown spoken)
  | list {r : Ref .list} (live : h.Live r) (items : ∀ x ∈ h.get r, Stands h x) : Stands h (.obj .list r)
  | dict {r : Ref .dict} (live : h.Live r) (filed : (h.get r).Filed h)
      (labels : ∀ e ∈ (h.get r).items, ∃ t, e.1 = .str t) (items : ∀ e ∈ (h.get r).items, Stands h e.2) :
      Stands h (.obj .dict r)

namespace Heap.Stands

theorem mono (stands : h.Stands x) (grown : h.Grown g) : g.Stands x := by
  induction stands with
  | bool b => exact .bool b
  | int i => exact .int i
  | real x => exact .real x
  | str s => exact .str s
  | moment type shown spoken => exact .moment type shown spoken
  | list live _ ih =>
    refine .list (grown.live _ live) ?_
    rwa [grown.get _ live]
  | dict live filed labels _ ih =>
    have same := grown.get _ live
    refine .dict (grown.live _ live) ?_ ?_ ?_
    · rw [same]
      exact filed.congr grown.tuples
    · rwa [same]
    · rwa [same]

theorem not_mute (stands : h.Stands x) : ¬ h.Mute x := by
  induction stands with
  | list live _ ih =>
    intro mute
    cases mute with
    | object none => cases none
    | part found mem mute =>
      cases found
      exact ih _ mem mute
    | field mem => cases mem
  | dict live filed labels _ ih =>
    refine not_mute_dict fun e mem => ⟨?_, ih e mem⟩
    obtain ⟨t, is⟩ := labels e mem
    rw [is]
    exact not_mute_str t
  | _ =>
    intro mute
    cases mute with
    | field mem => cases mem

theorem has (stands : h.Stands x) : h.Has x := by
  cases stands with
  | list live => exact live
  | dict live => exact live
  | _ => trivial

theorem given {r : Ref .dict} (stands : h.Stands (.obj .dict r)) : Settings.Given h (h.get r) := by
  cases stands with
  | dict live filed labels items =>
    refine ⟨filed, fun e mem => ?_, fun s mem e held => ?_, fun s mem => (items _ mem).not_mute⟩
    · obtain ⟨t, is⟩ := labels e mem
      rw [is]
      exact Heap.not_mute_str t
    · cases items _ mem with
      | dict _ _ _ within => exact (within e held).has

end Heap.Stands

namespace Dict

variable {e : Value × Value}

theorem mem_items_put {κ : Key} {label : Value} (mem : e ∈ (c.put κ label x).items) :
    e ∈ c.items ∨ e.2 = x ∧ (e.1 = label ∨ ∃ f ∈ c.items, e.1 = f.1) := by
  obtain ⟨entry, held, rfl⟩ := List.mem_map.mp mem
  rcases Assoc.mem_entries_insert held with rfl | old
  · refine .inr ⟨rfl, ?_⟩
    cases known : c.get? κ with
    | none => exact .inl rfl
    | some y => exact .inr ⟨y, List.mem_map_of_mem (Assoc.mem_entries_of_get? known), rfl⟩
  · exact .inl (List.mem_map_of_mem old)

theorem mem_items_ofTexts {es : List (String × Value)} (mem : e ∈ (ofTexts es).items) :
    (∃ t, e.1 = .str t) ∧ ∃ f ∈ es, e.2 = f.2 := by
  refine List.foldlRecOn (motive := fun c : Dict => ∀ e ∈ c.items, (∃ t, e.1 = .str t) ∧ ∃ f ∈ es, e.2 = f.2)
    es _ (fun _ none => by cases none) (fun c each f held e mem => ?_) e mem
  rcases mem_items_put mem with old | ⟨is, label | ⟨g, known, label⟩⟩
  · exact each e old
  · exact ⟨⟨f.1, label⟩, f, held, is⟩
  · exact ⟨label ▸ (each g known).1, f, held, is⟩

end Dict

def Data.Becomes (d : Data) : Prop :=
  ∀ w, ∃ x v, ofData d w = (.ok x, v) ∧ w.heap.Grown v.heap ∧ v.heap.Stands x

theorem ofAll_becomes {xs : List Data} (each : ∀ x ∈ xs, x.Becomes) (w : World) :
    ∃ ys v, ofAll xs w = (.ok ys, v) ∧ w.heap.Grown v.heap ∧ ∀ y ∈ ys, v.heap.Stands y := by
  induction xs generalizing w with
  | nil => exact ⟨[], w, rfl, .refl _, nofun⟩
  | cons x xs ih =>
    obtain ⟨y, u, first, grown, stands⟩ := each x List.mem_cons_self w
    obtain ⟨ys, v, rest, more, all⟩ := ih (fun z mem => each z (List.mem_cons_of_mem _ mem)) u
    refine ⟨y :: ys, v, ?_, grown.trans more, List.forall_mem_cons.mpr ⟨stands.mono more, all⟩⟩
    simp only [ofAll, run_bind, first, rest, run_pure]

theorem ofAll_words (ns : List String) (w : World) : ofAll (ns.map .str) w = (.ok (ns.map .str), w) := by
  induction ns with
  | nil => rfl
  | cons n ns ih => simp only [List.map_cons, ofAll, ofData, run_bind, run_pure, ih]

theorem filed_words (ns : List String) (ys : List Value) (c : Dict) (w : World) :
    (((ns.map Value.str).zip ys).foldlM (fun (d : Dict) e => do return d.put (← key e.1) e.1 e.2) c : Edit Dict) w =
      (.ok ((ns.zip ys).foldl (fun d e => d.put (Key.text e.1) (.str e.1) e.2) c), w) := by
  induction ns generalizing ys c with
  | nil => rfl
  | cons n ns ih =>
    cases ys with
    | nil => rfl
    | cons y ys =>
      have label : (liftM (key (.str n)) : Edit Key) w = (.ok (.text n), w) := (reads_key (.str n)).found rfl
      rw [List.map_cons, List.zip_cons_cons, List.zip_cons_cons, List.foldlM_cons, List.foldl_cons, run_bind, run_bind,
        label]
      exact ih ys _

theorem Toml.Content.becomes (content : Content d) : d.Becomes := by
  induction content with
  | bool b => exact fun w => ⟨_, w, rfl, .refl _, .bool b⟩
  | int i => exact fun w => ⟨_, w, rfl, .refl _, .int i⟩
  | real x => exact fun w => ⟨_, w, rfl, .refl _, .real x⟩
  | str s => exact fun w => ⟨_, w, rfl, .refl _, .str s⟩
  | moment type shown spoken => exact fun w => ⟨_, w, rfl, .refl _, .moment type shown spoken⟩
  | list _ ih =>
    intro w
    obtain ⟨ys, v, all, grown, stand⟩ := ofAll_becomes ih w
    have more : v.heap.Grown (v.alloc .list ys).heap := .alloc _ (k := .list) ys (by decide)
    refine ⟨.obj .list (v.heap.fresh .list), v.alloc .list ys, ?_, grown.trans more, ?_⟩
    · simp only [ofData, run_bind, all, run_lift, Quiet.run_newList]
    · refine .list (Heap.live_fresh_alloc _ _) fun y mem => (stand y ?_).mono more
      rwa [show (v.alloc .list ys).heap.get (v.heap.fresh .list) = ys from Heap.get_alloc_fresh _ _] at mem
  | @table ns xs _ ih =>
    intro w
    obtain ⟨ys, v, all, grown, stand⟩ := ofAll_becomes ih w
    let c := Dict.ofTexts (ns.zip ys)
    have more : v.heap.Grown (v.alloc .dict c).heap := .alloc _ (k := .dict) c (by decide)
    have made : (v.alloc .dict c).heap.get (v.heap.fresh .dict) = c := Heap.get_alloc_fresh _ _
    refine ⟨.obj .dict (v.heap.fresh .dict), v.alloc .dict c, ?_, grown.trans more, ?_⟩
    · simp only [ofData, run_bind, ofAll_words, all, filed_words, run_lift, Quiet.run_newDict]
      rfl
    · refine .dict (Heap.live_fresh_alloc _ _) ?_ (fun e mem => ?_) fun e mem => ?_
      · rw [made]
        exact Dict.filed_ofTexts _ _
      · rw [made] at mem
        exact (Dict.mem_items_ofTexts mem).1
      · rw [made] at mem
        obtain ⟨-, f, held, is⟩ := Dict.mem_items_ofTexts mem
        rw [is]
        exact (stand _ (List.of_mem_zip held).2).mono more

/-! ## Files -/

def Files.Garbled (fs : Files) (p : FilePath) : Prop := ∃ b, fs.read p = .ok b ∧ decodeText b = none

/-- A file is read as a table of what documents can hold, or refused; nothing changes. -/
theorem readTomlData_ends (p : FilePath) (w : World) :
    (Files.Garbled w.files p ∧ readTomlData p w = (.error (.plain .decoding), w)) ∨
      ¬ Files.Garbled w.files p ∧ ((∃ cause, readTomlData p w = (.error (.file cause), w)) ∨
        ∃ t : Table, t.Holds ∧ readTomlData p w = (.ok t.toData, w)) := by
  have files : (getFiles : Edit Files) w = (.ok w.files, w) := rfl
  unfold readTomlData
  cases opened : Files.read w.files p with
  | error f =>
    refine .inr ⟨fun ⟨b, ok, _⟩ => (by cases opened.symm.trans ok), .inl ?_⟩
    simp only [run_bind, files, opened, run_throw]
    cases f <;> exact ⟨_, rfl⟩
  | ok bytes =>
    cases decoded : decodeText bytes with
    | none =>
      exact .inl ⟨⟨bytes, opened, decoded⟩, by simp only [run_bind, files, opened, decoded, run_throw]⟩
    | some text =>
      refine .inr ⟨fun ⟨b, ok, garbled⟩ => ?_, ?_⟩
      · cases opened.symm.trans ok
        cases decoded.symm.trans garbled
      · cases said : read? text with
        | none => exact .inl ⟨.parse p.text, by simp only [run_bind, files, opened, decoded, said, run_throw]⟩
        | some d =>
          obtain ⟨t, holds, rfl⟩ := content_read? said
          exact .inr ⟨t, holds, by simp only [run_bind, files, opened, decoded, said, run_pure]⟩

namespace Settings

def Settles (w : World) (r : Except Fault (Ref .settings) × World) : Prop :=
  (∃ s v z, r = (.ok s, v) ∧ z.Proper ∧ w.heap.Grown v.heap ∧ v.heap.Sets s z) ∨
    ∃ cause v, r = (.error (.validation cause), v)

theorem ofTable_settles {r : Ref .dict} (grown : w.heap.Grown v.heap) (given : Given v.heap (v.heap.get r)) :
    Settles w (ofTable (.obj .dict r) v) := by
  rcases ofTable_judged given with ⟨accepts, s, u, run, more, -, sets⟩ | ⟨-, cause, u, run⟩
  · exact .inl ⟨s, u, _, run, accepts.proper given.filed, grown.trans more, sets⟩
  · exact .inr ⟨cause, u, run⟩

/-- A document with a table of settings comes to what the table says, one without it to the defaults. -/
theorem readSettings_settles {p : FilePath} {t : Table} (holds : t.Holds)
    (read : readTomlData p w = (.ok t.toData, w)) : Settles w (readSettings p w) := by
  obtain ⟨x, v, became, grown, stands⟩ := holds.content.becomes w
  unfold readSettings
  rw [run_bind, read]
  dsimp only
  rw [run_bind, became]
  dsimp only
  rw [run_bind, run_lift, Quiet.run_heap]
  dsimp only
  generalize found : ((v.heap.dict? x).bind fun d => d.find? (Key.text tableName)) = table
  split
  · rw [run_bind, run_lift, Quiet.run_newDict]
    have more : v.heap.Grown (v.alloc .dict {}).heap := .alloc _ (k := .dict) {} (by decide)
    refine ofTable_settles (v := v.alloc .dict {}) (grown.trans more) ?_
    rw [show (v.alloc .dict {}).heap.get (v.heap.fresh .dict) = {} from Heap.get_alloc_fresh _ _]
    exact ⟨Dict.filed_empty _, nofun, nofun, nofun⟩
  · refine ofTable_settles grown (Heap.Stands.given ?_)
    obtain ⟨c, is, held⟩ := Option.bind_eq_some_iff.mp found
    obtain ⟨s, rfl⟩ := dict?_eq_some is
    cases is
    cases stands with
    | dict live filed labels items => exact items _ ((find?_text filed).mp held)
  · exact .inr ⟨_, v, rfl⟩

theorem bind_pathOf (p : String) : (pathOf (.str p) >>= fun q => readSettings q) = readSettings (.ofText p) := rfl

theorem ofFile_settled {p : String} {s : Ref .settings} (read : readSettings (.ofText p) w = (.ok s, v)) :
    ofFile (.str p) w = (.ok s, v) := by
  unfold ofFile
  rw [run_tryCatch, bind_pathOf, read]

theorem ofFile_refused {p : String} {f : Fault} (read : readSettings (.ofText p) w = (.error f, v))
    (kind : f.kind = .toml ∨ f.kind = .validation) :
    ofFile (.str p) w = (.error (.settingsFile p f.message), v) := by
  have told : (spoken (.str p)).run v = (.ok p, v) := spoken_told (Heap.not_mute_str p)
  unfold ofFile
  rw [run_tryCatch, bind_pathOf, read]
  rcases kind with kind | kind <;> simp only [kind, run_bind, run_lift, told, run_throw]

/-- Loading settings from a file gives proper settings or fails as a matter of configuration, unless the file is
not text. -/
theorem ofFile_ends (p : String) (w : World) :
    (Files.Garbled w.files (.ofText p) ∧ ofFile (.str p) w = (.error (.plain .decoding), w)) ∨
      ¬ Files.Garbled w.files (.ofText p) ∧
        ((∃ s v z, ofFile (.str p) w = (.ok s, v) ∧ z.Proper ∧ w.heap.Grown v.heap ∧ v.heap.Sets s z) ∨
          ∃ detail v, ofFile (.str p) w = (.error (.settingsFile p detail), v)) := by
  rcases readTomlData_ends (.ofText p) w with ⟨garbled, ends⟩ | ⟨text, ⟨cause, ends⟩ | ⟨t, holds, read⟩⟩
  · refine .inl ⟨garbled, ?_⟩
    have ends : readSettings (.ofText p) w = (.error (.plain .decoding), w) := by
      rw [readSettings, run_bind, ends]
    unfold ofFile
    rw [run_tryCatch, bind_pathOf, ends]
    rfl
  · have ends : readSettings (.ofText p) w = (.error (.file cause), w) := by rw [readSettings, run_bind, ends]
    exact .inr ⟨text, .inr ⟨_, w, ofFile_refused ends (.inl rfl)⟩⟩
  · refine .inr ⟨text, ?_⟩
    rcases readSettings_settles holds read with ⟨s, v, z, ends, proper, grown, sets⟩ | ⟨cause, v, ends⟩
    · exact .inl ⟨s, v, z, ofFile_settled ends, proper, grown, sets⟩
    · exact .inr ⟨_, v, ofFile_refused ends (.inr rfl)⟩

end Settings
end AsyncImport
