import RobotCode.Tally.Rebuild

/-! # Density

The share of nodes that are calls to primitive instructions, kept as the exact quotient. It is
written as the nearest floating-point number, and in summaries to three places.
-/
namespace RobotCode

structure Density where
  calls : Nat
  nodes : Nat
  deriving DecidableEq, Repr

namespace Density

def value (d : Density) : Binary64 := .ofRatio d.calls d.nodes

def text (d : Density) : String := d.value.text

/-- Thousandths, rounded from the product of the floating-point number and 1000, itself rounded; a
half goes to the even neighbour. -/
def thousandths (d : Density) : Nat :=
  let whole (x : Binary64) (factor : Nat) : Nat × Nat :=
    match x.toRatio? with
    | some (a, b) => (a.natAbs * factor, b)
    | none => (0, 1)
  let (a, b) := whole d.value 1000
  let (a, b) := whole (.ofRatio a b) 1
  roundDiv a b

/-- The number of nodes is taken before the statement is counted by taking it apart. -/
def of (a : Argument) : StoreM Density := do
  let r ← StoreM.ask fun _ => a.toStatement "num_nodes"
  let nodes ← Statement.size r
  let calls ← Tally.count a
  return ⟨calls, nodes⟩

end Density
end RobotCode
