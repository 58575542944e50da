import AsyncImport.Glob
import AsyncImport.Task.Await

/-!
# Whether a plugin takes part

A draft that names plugins is for these alone. Otherwise a plugin without rules takes part
everywhere, and a plugin with rules where one of its patterns matches.
-/

namespace AsyncImport

open Edit Routine

/-- Compares a value with a glob; nothing matches no glob. -/
def globMatch (value pattern : Value) : Quiet Bool := do
  match value, pattern with
  | .none, _ => return false
  | .str v, .str p => return Glob.admits p v
  | _, _ => throw .typeMismatch

def containsItem (container item : Value) : Quiet Bool := do
  let h ← heap
  match container with
  | .obj .dict r => return (h.get r).contains (← key item)
  | .obj .store r => return (h.get r).contains (← key item)
  | .str s => match item with
    | .str t => return (s.splitOn t).length > 1 || t.isEmpty
    | _ => throw .typeMismatch
  | _ => return h.among item (← items container)

namespace Matcher

def compareWith (compare value : Value) (pattern : String) : Routine Bool := do
  match compare with
  | .library .globMatch => globMatch value (.str pattern)
  | _ => truthy (← callValue compare [value, .str pattern])

def accepts (m : Matcher) (value : Value) : Routine Bool :=
  if value = .none then return false
  else m.patterns.anyM (compareWith m.compare value)

end Matcher

namespace IgnoreRules

def ignores (r : IgnoreRules) (name : Value) (h : Hook) : Routine Bool :=
  match r.matcher? h with
  | some m => m.accepts name
  | none => return false

end IgnoreRules

namespace Plugin

/-- What a rule compares with its patterns: the name, or else the path if there is one. -/
def ruleValue (d : Draft) (rule : Value) : Quiet Value := do
  if rule = .str "name" then return d.name
  else if ← truthy d.path then return d.path
  else return d.name

def takesPart (p : Ref .plugin) (d : Ref .draft) : Routine Bool := do
  let plugin ← Edit.read p
  let draft ← Edit.read d
  if ← truthy draft.plugins then
    if plugin.name = .none then return false
    else containsItem draft.plugins plugin.name
  else if plugin.rules.size = 0 then return true
  else plugin.rules.values.anyM fun (rule : Rule) => do
    rule.matcher.accepts (← ruleValue (← Edit.read d) rule.name)

end Plugin
end AsyncImport
