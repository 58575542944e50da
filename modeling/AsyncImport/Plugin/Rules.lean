import AsyncImport.Assoc
import AsyncImport.Value.Basic

/-!
# Matching rules

A matcher is a set of patterns in order of arrival; a text matches when one of the patterns does.
Ignore rules keep one matcher for each hook.
-/

namespace AsyncImport

structure Matcher where
  patterns : List String := []
  /-- The function that compares a text with a pattern. -/
  compare : Value := .library .globMatch
  deriving DecidableEq, Repr, Inhabited

namespace Matcher

def addOne (m : Matcher) (p : String) : Matcher :=
  if p ∈ m.patterns then m else { m with patterns := m.patterns ++ [p] }

def add (m : Matcher) (ps : List String) : Matcher := ps.foldl addOne m

end Matcher

structure IgnoreRules where
  compare : Value := .library .globMatch
  rules : Assoc Hook Matcher := {}
  deriving DecidableEq, Repr, Inhabited

namespace IgnoreRules

def matcher? (r : IgnoreRules) (h : Hook) : Option Matcher := r.rules.get? h

def matcher (r : IgnoreRules) (h : Hook) : Matcher := (r.matcher? h).getD { compare := r.compare }

def touch (r : IgnoreRules) (h : Hook) : IgnoreRules :=
  { r with rules := r.rules.insert h (r.matcher h) }

def add (r : IgnoreRules) (h : Hook) (ps : List String) : IgnoreRules :=
  { r with rules := r.rules.insert h ((r.matcher h).add ps) }

def clear (r : IgnoreRules) (h : Hook) : IgnoreRules := { r with rules := r.rules.erase h }

def clearAll (r : IgnoreRules) : IgnoreRules := { r with rules := {} }

end IgnoreRules
end AsyncImport
