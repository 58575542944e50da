import AsyncImport.Proofs.Minding
import AsyncImport.Proofs.Transcripts
import Mathlib.Data.List.Forall2

/-!
# Stories

A run of the machine is recorded thread by thread, the host being a thread too. A `Story` is a request
of a thread with all that was asked for on its behalf, as far as this has come. A story is `Told` when
its parts are such as the code of its activity asks for, in one of the ways in which that may unfold, and
when a future that was awaited is done with the value that was given for it.
-/

namespace AsyncImport

/-- A request, with the requests that it led to and its answer, if there is one yet. -/
inductive Story where
  | mk (request : Request) (before : World) (parts : List Story) (answer : Option (Outcome × World))

namespace Story

def request : Story → Request
  | .mk r _ _ _ => r

def before : Story → World
  | .mk _ w _ _ => w

def parts : Story → List Story
  | .mk _ _ ss _ => ss

def answer : Story → Option (Outcome × World)
  | .mk _ _ _ a => a

structure Tells (s : Story) (x : Exchange) : Prop where
  request : s.request = x.request
  before : s.before = x.before
  answer : ∀ o v, s.answer = some (o, v) → o = x.outcome ∧ v = x.after

def Closed (s : Story) : Prop := s.answer ≠ none

def Completes : List Story → List Exchange → Prop := List.Forall₂ fun s x => s.Tells x ∧ s.Closed

inductive Begins : List Story → List Exchange → Prop
  | none {l} : Begins [] l
  | last {s x l} (tells : Tells s x) : Begins [s] (x :: l)
  | next {s ss x l} (tells : Tells s x) (closed : s.Closed) (later : Begins ss l) :
      Begins (s :: ss) (x :: l)

end Story

def World.Grants (w : World) (f : Ref .future) (answer : Option (Outcome × World)) : Prop :=
  ∀ o v, answer = some (o, v) → w.Reckons v ∧ ∀ x, o = .ok x → (v.heap.get f).status = .done x

namespace Story

/-- A story that goes as the activities are meant. -/
inductive Told (body : Meaning) : Story → Prop
  | ended {a w ss l o v} (unfolds : (body a).Unfolds w l o v) (completes : Completes ss l)
      (each : ∀ s ∈ ss, Told body s) : Told body (.mk (.call a) w ss (some (o, v)))
  | unfinished {a w ss l o v} (unfolds : (body a).Unfolds w l o v) (begins : Begins ss l)
      (each : ∀ s ∈ ss, Told body s) : Told body (.mk (.call a) w ss none)
  | pause {w r} : Told body (.mk .pause w [] r)
  | await {f w r} (grants : w.Grants f r) : Told body (.mk (.await f) w [] r)

inductive Occurs (s : Story) : Story → Prop
  | here : Occurs s s
  | within {p q : Story} (mem : q ∈ p.parts) (occurs : Occurs s q) : Occurs s p

section

variable {body : Meaning} {s t : Story} {ss ts : List Story} {l m : List Exchange}

theorem Told.part (told : s.Told body) (mem : t ∈ s.parts) : t.Told body := by
  cases told with
  | ended _ _ each | unfinished _ _ each => exact each t mem
  | pause | await => cases mem

theorem Told.occurs (told : t.Told body) (occurs : s.Occurs t) : s.Told body := by
  induction occurs with
  | here => exact told
  | within mem _ ih => exact ih (told.part mem)

theorem completes_append (first : Completes ss l) (next : Completes ts m) :
    Completes (ss ++ ts) (l ++ m) := List.rel_append first next

theorem completes_snoc {x : Exchange} (first : Completes ss l) (tells : t.Tells x) (closed : t.Closed) :
    Completes (ss ++ [t]) (l ++ [x]) := completes_append first (.cons ⟨tells, closed⟩ .nil)

theorem Completes.begins (completes : Completes ss l) : Begins ss (l ++ m) := by
  induction completes with
  | nil => exact .none
  | cons here _ ih => exact .next here.1 here.2 ih

theorem Completes.begins_snoc {x : Exchange} (completes : Completes ss l) (tells : t.Tells x) :
    Begins (ss ++ [t]) (l ++ x :: m) := by
  induction completes with
  | nil => exact .last tells
  | cons here _ ih => exact .next here.1 here.2 ih

end

end Story

/-! ## Recording a run -/

inductive Mark where
  | opens (request : Request) (before : World)
  | closes (outcome : Outcome) (after : World)

/-- A request that is not answered yet. -/
structure Scene where
  request : Request
  before : World
  parts : List Story := []

def Scene.story (c : Scene) (later : List Story) (answer : Option (Outcome × World)) : Story :=
  .mk c.request c.before (c.parts ++ later) answer

def Scene.add (c : Scene) (s : Story) : Scene := { c with parts := c.parts ++ [s] }

/-- What a thread has done: the requests that are not answered, the innermost first, and those that are. -/
structure Account where
  scenes : List Scene := []
  past : List Story := []

namespace Account

def add (a : Account) (s : Story) : Account :=
  match a.scenes with
  | [] => { a with past := a.past ++ [s] }
  | c :: cs => { a with scenes := c.add s :: cs }

def note (a : Account) : Mark → Account
  | .opens r w => { a with scenes := { request := r, before := w } :: a.scenes }
  | .closes o v =>
    match a.scenes with
    | [] => a
    | c :: cs => { a with scenes := cs }.add (c.story [] (some (o, v)))

def unfinished : List Story → List Scene → List Story
  | inner, [] => inner
  | inner, c :: cs => unfinished [c.story inner none] cs

def stories (a : Account) : List Story := a.past ++ unfinished [] a.scenes

end Account

abbrev Log := List (Option (Ref .future) × Mark)

namespace Log

def account (log : Log) (t : Option (Ref .future)) : Account :=
  log.foldl (fun a e => if e.1 = t then a.note e.2 else a) {}

def Shows (log : Log) (s : Story) : Prop :=
  ∃ t, ∃ p ∈ (log.account t).stories, s.Occurs p

end Log

namespace Machine

def reply (m : Machine) : Request → Outcome
  | .await f => (m.outcome? f).2.getD (.error (m.world.heap.fresh .failure))
  | _ => .error (m.world.heap.fresh .failure)

def asked (m n : Machine) (r : Request) : List Mark :=
  .opens r m.world :: if n.focus.isSome then [.closes (m.reply r) n.world] else []

def told (m : Machine) (t : Ref .future) (o : Outcome) : Outcome :=
  match (m.world.heap.get t).origin with
  | .task _ _ true => .error (m.world.heap.fresh .failure)
  | _ => o

def word (m : Machine) : Job → Outcome
  | .step t => m.told t (.ok .none)
  | .react (.wake t) f => (m.outcome? f).1.told t (m.reply (.await f))
  | .react (.tell _) _ => .ok .none

def deed (m n : Machine) : Routine Value → List Mark
  | .done v => [.closes (.ok v) m.world]
  | .fail e => [.closes (.error e) m.world]
  | .call a _ => [.opens (.call a) m.world]
  | .pause _ => m.asked n .pause
  | .await f _ => m.asked n (.await f)
  | .read _ | .write _ _ => []

def taken (m n : Machine) (j : Job) : Log :=
  match n.focus with
  | some y =>
    if m.waiting.any fun e => some e.1 = y.owner then [(y.owner, .closes (m.word j) n.world)]
    else y.activity.toList.map fun a => (y.owner, .opens (.call a) n.world)
  | none => []

def marks (m n : Machine) : Log :=
  match m.focus with
  | some x => (m.deed n x.code).map fun k => (x.owner, k)
  | none => match m.world.ready with
    | j :: js => taken { m with world := { m.world with ready := js } } n j
    | [] => []

/-- The runs of a machine, with what is done in them. -/
inductive Recorded (body : Meaning) (conduct : Conduct) (start : Machine) : Machine → Log → Prop
  | start : Recorded body conduct start start []
  | step {m n : Machine} {log : Log} (run : Recorded body conduct start m log)
      (observed : conduct.Observed m) (next : m.step body = some n) :
      Recorded body conduct start n (log ++ m.marks n)
  | visit {m : Machine} {log : Log} (run : Recorded body conduct start m log) (idle : m.focus = none)
      (r : Routine Value) : Recorded body conduct start (m.visit r) log

def record (body : Meaning) (fits : Machine → Bool) : Nat → Machine → Log → Machine × Log
  | 0, m, log => (m, log)
  | n + 1, m, log => match m.step body with
    | some k => if fits m then record body fits n k (log ++ m.marks k) else (m, log)
    | none => (m, log)

end Machine

end AsyncImport
