import RobotCode.Store.Basic
import RobotCode.Fault

/-! # Search below a node

The search keeps a stack of nodes still to be looked at and always takes the last child first. In a
store without sharing and cycles no node comes up twice, so a search that has looked at more nodes
than there are is going round for ever.
-/
namespace RobotCode.Store

/-- The nodes looked at in turn, the sought one last if it is found. -/
def visits (s : Store) (sought : NodeId) :
    (steps : Nat) → (stack : List NodeId) → Option (List NodeId)
  | _, [] => some []
  | 0, _ :: _ => none
  | k + 1, n :: stack =>
    if n = sought then some [n]
    else (s.visits sought k ((s.read n).children.reverse ++ stack)).map (n :: ·)

/-- The nodes looked at in the search for a node strictly below `n`. -/
def search (s : Store) (n sought : NodeId) : Option (List NodeId) :=
  s.visits sought (s.size + 1) (s.read n).children.reverse

/-- Whether the search finds `sought` strictly below `n`. -/
def reaches (s : Store) (n sought : NodeId) : Except Fault Bool :=
  match s.search n sought with
  | some seen => .ok (decide (sought ∈ seen))
  | none => .error .endless

end RobotCode.Store
