import AsyncImport.Value.Basic

/-!
# Modules

A module is made from a finished draft, linked, and then kept in its manager's cache. Its code is
set once.
-/

namespace AsyncImport

structure Module where
  name : String
  /-- The module's value; nothing before the module is linked. -/
  code : Option Value := none
  format : Value := .format .unknown
  deps : Value
  factory : Value := .none
  settings : Value
  deriving DecidableEq, Repr, Inhabited

namespace Module

def hasCode (m : Module) : Bool := m.code.isSome

def shownCode (m : Module) : Value := m.code.getD .none

end Module
end AsyncImport
