import AsyncImport.Plugin.Rules
import AsyncImport.Value.Key

/-!
# Plugins and registries

A plugin bundles handlers for hooks with the rules that say which drafts it takes part in. A
registry holds the plugins of a manager, and for each hook the plugins that have handlers for it.
-/

namespace AsyncImport

/-- A handler: a function of a draft and its options, or the name of a module whose code is one. -/
structure Handler where
  target : Value
  options : Value := .none
  deriving DecidableEq, Repr, Inhabited

namespace Handler

def isNamed (h : Handler) : Bool := h.target.str?.isSome

def addTo (hs : List Handler) (h : Handler) : List Handler :=
  if hs.any fun k => k.target = h.target then hs else hs ++ [h]

def merge (current added : List Handler) : List Handler := added.foldl addTo current

end Handler

/-- The patterns that a plugin has under one rule name. -/
structure Rule where
  name : Value
  matcher : Matcher
  deriving DecidableEq, Repr, Inhabited

structure Plugin where
  name : Value := .none
  registry : Value := .none
  rules : Assoc Key Rule := {}
  handlers : Assoc Hook (List Handler) := {}
  deriving DecidableEq, Repr, Inhabited

namespace Plugin

def handlersFor (p : Plugin) (h : Hook) : List Handler := (p.handlers.get? h).getD []

def hasHandlers (p : Plugin) (h : Hook) : Bool := !(p.handlersFor h).isEmpty

def setRule (p : Plugin) (key : Key) (rule : Rule) : Plugin :=
  let name := ((p.rules.get? key).map Rule.name).getD rule.name
  { p with rules := p.rules.insert key { rule with name := name } }

def addHandlers (p : Plugin) (h : Hook) (added : List Handler) : Plugin :=
  let merged := Handler.merge (p.handlersFor h) added
  if merged.length = (p.handlersFor h).length then p
  else { p with handlers := p.handlers.insert h merged }

end Plugin

/-- The plugins that take part in one hook, in the order in which each got its first handler. -/
structure Fanout where
  hook : Value
  plugins : List Value := []
  deriving DecidableEq, Repr, Inhabited

namespace Fanout

def use (f : Fanout) (p : Value) : Fanout :=
  if p ∈ f.plugins then f else { f with plugins := f.plugins ++ [p] }

end Fanout

structure Registry where
  compare : Value := .library .globMatch
  resolver : Value := .none
  directResolver : Value := .none
  fanouts : List (Hook × Ref .fanout) := []
  plugins : List (Ref .plugin) := []
  named : Assoc String (Ref .plugin) := {}
  deriving DecidableEq, Repr, Inhabited

namespace Registry

def fanout? (r : Registry) (h : Hook) : Option (Ref .fanout) := r.fanouts.lookup h

def addPlugin (r : Registry) (name : Option String) (p : Ref .plugin) : Registry :=
  { r with
    plugins := r.plugins ++ [p]
    named := match name with
      | some n => r.named.insert n p
      | none => r.named }

end Registry
end AsyncImport
