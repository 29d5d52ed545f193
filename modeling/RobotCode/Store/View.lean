import RobotCode.Fault
import RobotCode.Store.Basic

/-! # The value of a node

`s.tree? n` follows the children of `n` down to the leaves. Every path in a finite store that comes
back to no node is shorter than the store is large, so a longer one goes round a cycle, and then
there is no value, and the text of the node has no end.
-/
namespace RobotCode.Store

/-- The value of a node if no path down from it has more than `depth` nodes. -/
def treeWithin? (s : Store) : (depth : Nat) → NodeId → Option Tree
  | 0, _ => none
  | d + 1, n => ((s.read n).children.mapM (s.treeWithin? d)).map (s.read n).label.tree

def tree? (s : Store) (n : NodeId) : Option Tree := s.treeWithin? (s.size + 1) n

def text (s : Store) (n : NodeId) : Except Fault String :=
  match s.tree? n with
  | some t => .ok t.text
  | none => .error .endless

theorem text_of_tree? {s : Store} {n : NodeId} {t : Tree} (h : s.tree? n = some t) :
    s.text n = .ok t.text := by simp [text, h]

end RobotCode.Store
