import AsyncImport.Value.Basic

/-!
# Drafts

A draft is the record of a module in the making: it is created for a requested or registered name,
threaded through the fetch, transform and dependency stages, and consumed once by compiling. Hosts
may write any value into a field, so the fields are values.
-/

namespace AsyncImport

structure Draft where
  name : Value
  path : Value := .none
  content : Value := .pending
  deps : Value
  plugins : Value
  format : Value := .format .unknown
  referrer : Value := .none
  attributes : Value
  deriving DecidableEq, Repr, Inhabited

namespace Value

/-- Whether content is finished: code, or a factory that makes it. -/
def isFinished : Value → Bool
  | .code _ | .factory _ => true
  | _ => false

def isSource : Value → Bool
  | .source _ => true
  | _ => false

def variant (content : Value) : String := content.typeName

end Value

namespace Draft

def isCompiled (d : Draft) : Bool := d.content.isFinished

def canCompile (d : Draft) : Bool := d.content.isSource

def hasContent (d : Draft) : Bool := d.isCompiled || d.canCompile

def source (d : Draft) : Value :=
  match d.content with
  | .source text => text
  | _ => .none

def factory (d : Draft) : Value :=
  match d.content with
  | .factory fn => fn
  | _ => .none

def code (d : Draft) : Value :=
  match d.content with
  | .code v => v
  | _ => .none

end Draft
end AsyncImport
