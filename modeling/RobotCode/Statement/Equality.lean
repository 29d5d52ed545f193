import RobotCode.Store.Edit

/-! # Equality of statements

Two statements are equal if they have the same kind, test and name, and equal children in the same
order. They are compared from the top down and from left to right, up to the first difference.
-/
namespace RobotCode

namespace Store

def equalWithin (s : Store) : (depth : Nat) → NodeId → NodeId → Except Fault Bool
  | 0, _, _ => .error .endless
  | d + 1, m, n => do
    let b ← s.fields m
    let c ← s.fields n
    if b.kind = c.kind ∧ b.test? = c.test? ∧ b.name? = c.name? ∧
        b.children.length = c.children.length then
      (b.children.zip c.children).allM fun (x, y) => s.equalWithin d x y
    else return false

/-- Two statements that go on side by side for longer than there are pairs of nodes never end. -/
def equal (s : Store) (m n : NodeId) : Except Fault Bool :=
  s.equalWithin (s.size * s.size + 1) m n

/-- How statements in lists and mappings are compared. A statement is itself, whatever has become of
it. -/
def equalHeld (s : Store) (m n : NodeId) : Except Fault Bool :=
  if m = n then return true else s.equal m n

end Store

namespace Statement
open StoreM

/-- Whether both are one and the same node. -/
def same : Argument → Argument → Bool
  | .statement m, .statement n => m = n
  | _, _ => false

/-- Statements are compared node by node, plain arguments by value; no statement equals anything
that is not one. -/
def equals (a b : Argument) : StoreM Bool :=
  match a, b with
  | .statement m, .statement n => ask (·.equal m n)
  | a, b => ask fun s => a.equalData s.equalHeld b

/-- As `equals`, but both have to be statements. -/
def equalStatements (a b : Argument) : StoreM Bool :=
  match a, b with
  | .statement m, .statement n => ask (·.equal m n)
  | .statement m, b => ask fun s => do
    let _ ← s.assembled m
    throw (.lacks b.typeName "kind")
  | a, _ => throw (.lacks a.typeName "kind")

end Statement
end RobotCode
