import RobotCode.Store.Edit

/-! # Views of a statement

Views look at a statement without changing it, and fail at the first node taken apart that they come
to, from the top down and from left to right.
-/
namespace RobotCode

namespace Store

/-- The number of nodes of a statement no deeper than `depth`. -/
def sizeWithin (s : Store) : (depth : Nat) → NodeId → Except Fault Nat
  | 0, _ => .error .endless
  | d + 1, n => do
    let v ← s.assembled n
    v.children.foldlM (fun total child => do return total + (← s.sizeWithin d child)) 1

def sizeOf (s : Store) (n : NodeId) : Except Fault Nat := s.sizeWithin (s.size + 1) n

/-- The first whole number too large for an index. -/
def indexLimit : Int := 0x8000000000000000

/-- The element at an index, which counts from the end if it is negative. -/
def atIndex (xs : List α) (i : Int) : Except Fault α :=
  let k := if i < 0 then i + xs.length else i
  if i < -indexLimit ∨ indexLimit ≤ i then .error .indexTooLarge
  else if k < 0 then .error .noSuchChild
  else (xs[k.toNat]?).elim (.error .noSuchChild) .ok

def childAt (s : Store) (n : NodeId) (i : Int) : Except Fault NodeId := do
  let v ← s.assembled n
  atIndex v.children i

end Store

namespace Statement
open StoreM

/-- A field of a statement that has not been taken apart. -/
def field (f : Cell → α) (r : NodeId) : StoreM α := do
  let c ← ask (·.fields r)
  return f c

def kind : NodeId → StoreM Kind := field Cell.kind

def children : NodeId → StoreM (List NodeId) := field Cell.children

def child (r : NodeId) (i : Int) : StoreM NodeId := ask (·.childAt r i)

def condition : NodeId → StoreM (Option Condition) := field Cell.test?

def callName : NodeId → StoreM (Option String) := field Cell.name?

def size (r : NodeId) : StoreM Nat := ask (·.sizeOf r)

def copyWithin : (depth : Nat) → NodeId → StoreM NodeId
  | 0, _ => throw .endless
  | d + 1, n => do
    let c ← ask (·.fields n)
    let copies ← c.children.mapM (copyWithin d)
    fresh { c with children := copies, awaited? := none }

/-- A statement of the same value all of whose nodes are new. -/
def copy (r : NodeId) : StoreM NodeId := do
  let depth ← ask fun s => .ok (s.size + 1)
  copyWithin depth r

end Statement
end RobotCode
