import AsyncImport.Edit

/-!
# Values from data

Data that were read or computed become values: each list, tuple and mapping a new object.
-/

namespace AsyncImport.Edit

mutual

def ofData : Data → Edit Value
  | .bool b => return .bool b
  | .int i => return .int i
  | .real x => return .real x
  | .str s => return .str s
  | .bytes b => return .bytes b
  | .atom v _ _ _ => return v
  | .list xs => do newList (← ofAll xs)
  | .tuple xs => do newTuple (← ofAll xs)
  | .dict ks vs => do
    let labels ← ofAll ks
    let values ← ofAll vs
    newDict (← (labels.zip values).foldlM (fun (d : Dict) e => do
      return d.put (← key e.1) e.1 e.2) {})
  | .none | .record .. | .cycle => return .none

def ofAll : List Data → Edit (List Value)
  | [] => return []
  | x :: xs => do
    let v ← ofData x
    return v :: (← ofAll xs)

end

end AsyncImport.Edit
