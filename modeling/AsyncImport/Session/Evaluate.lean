import AsyncImport.Session.Members
import AsyncImport.Session.Script

/-!
# Evaluating expressions

Expressions read the world and make objects, but run nothing of the host's.
-/

namespace AsyncImport

open Edit

namespace Edit

def variableOf (name : String) : Edit Value := do
  match (← get).bindings.get? name with
  | some v => return v
  | none => throw (.plain .unknownVariable)

def keep (name : Option String) (v : Value) : Edit Unit :=
  match name with
  | some n => modify fun w => { w with bindings := w.bindings.insert n v }
  | none => return ()

def itemOf (container key : Value) : Edit Value := do
  match container, key with
  | .obj .dict r, _ => match (← read r).find? (← Edit.key key) with
    | some v => return v
    | none => throw (.plain .key)
  | _, .int i => match (← heap).sequence? container with
    | some vs =>
      let place := if i < 0 then i + vs.length else i
      match if place < 0 then none else vs[place.toNat]? with
      | some v => return v
      | none => throw (.plain .index)
    | none => throw .typeMismatch
  | _, _ => throw .typeMismatch

def termOf (v : Value) : Edit Int := do
  match v with
  | .int i => return i
  | .bool b => return Data.ofBool b
  | _ => throw .typeMismatch

def textOf (v : Value) (f : Fault) : Edit String := do
  match v with
  | .str s => return s
  | _ => throw f

def nested (v : Value) : Nat → Edit Value
  | 0 => return v
  | n + 1 => do newList [← nested v n]

end Edit

namespace Expr

mutual

def eval (args : List Value) : Expr → Edit Value
  | .null => return .none
  | .bool b => return .bool b
  | .int i => return .int i
  | .real x => return .real x
  | .str s => return .str s
  | .bytes b => return .bytes b
  | .list es => do newList (← evalAll args es)
  | .tuple es => do newTuple (← evalAll args es)
  | .map ks vs => do
    let keys ← evalAll args ks
    let values ← evalAll args vs
    newDict (← (keys.zip values).foldlM (fun (d : Dict) e => do
      return d.put (← Edit.key e.1) e.1 e.2) {})
  | .nest e n => do nested (← eval args e) n
  | .function n => return .host n
  | .library p => return .library p
  | .dataType t => return .dataType t
  | .hook h => return .hook h
  | .format f => return .format f
  | .phase p => return .phase p
  | .make m es labels named => do
    let items ← evalAll args es
    m.make ⟨items, labels.zip (← evalAll args named)⟩
  | .failure k m => return .obj .failure (← Edit.failure (.raised k m))
  | .resolved e => do return .obj .future (← Edit.resolved (← eval args e))
  | .variable n path => do path.foldlM getMember (← variableOf n)
  | .argument i => match args[i]? with
    | some v => return v
    | none => throw (.plain .index)
  | .member e l => do getMember (← eval args e) l
  | .item e k => do
    let container ← eval args e
    itemOf container (← eval args k)
  | .join es => do
    let texts ← (← evalAll args es).mapM fun v => (spoken v : Edit String)
    return .str (String.join texts)
  | .upper e => do return .str (Text.upper (← textOf (← eval args e) .missing))
  | .sum es => do
    let terms ← (← evalAll args es).mapM termOf
    return .int terms.sum
  | .equal a b => do
    let v ← eval args a
    let w ← eval args b
    return .bool ((← heap).same v w)
  | .startsWith e start => do
    let s ← textOf (← eval args e) .missing
    let t ← textOf (← eval args start) .typeMismatch
    return .bool (t.toList.isPrefixOf s.toList)
  | .lookup ks vs k default => do
    match ← eval args k with
    | .str s => evalFound args s (eval args default) ks vs
    | _ => eval args default
  | .repeated e n => do
    match ← eval args e with
    | .str s => return .str (String.join (List.replicate n s))
    | _ => throw .typeMismatch

def evalAll (args : List Value) : List Expr → Edit (List Value)
  | [] => return []
  | e :: es => do
    let v ← eval args e
    return v :: (← evalAll args es)

def evalFound (args : List Value) (key : String) (default : Edit Value) :
    List String → List Expr → Edit Value
  | k :: ks, e :: es => if k = key then eval args e else evalFound args key default ks es
  | _, _ => default

end

end Expr

def ArgumentList.eval (args : List Value) (a : ArgumentList) : Edit Arguments := do
  let items ← a.items.mapM (Expr.eval args)
  let named ← a.named.mapM fun n => return (n.1, ← Expr.eval args n.2)
  return ⟨items, named⟩

end AsyncImport
