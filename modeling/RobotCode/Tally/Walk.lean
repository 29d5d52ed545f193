import RobotCode.Store.Edit

/-! # Counting by looking

The same count on views alone. The nodes still to be looked at wait on a stack, the last child on
top, and nothing is changed.
-/
namespace RobotCode

namespace Store

def walk (s : Store) : (steps : Nat) → (stack : List NodeId) → (calls : Nat) → Except Fault Nat
  | _, [], calls => .ok calls
  | 0, _ :: _, _ => .error .endless
  | k + 1, n :: stack, calls => do
    let v ← s.assembled n
    match v.label with
    | .call name => s.walk k stack (if Primitive.isPrimitive name then calls + 1 else calls)
    | _ => s.walk k (v.children.reverse ++ stack) calls

end Store

namespace Tally

def countWalking (a : Argument) : StoreM Nat := StoreM.ask fun s => do
  let n ← a.toStatement "kind"
  s.walk (s.size + 1) [n] 0

end Tally
end RobotCode
