import RobotCode.Proofs.Moves
import RobotCode.Proofs.Tallies

/-! # What counting has to do

Counting a statement without disassembled nodes gives the number of primitive calls in its value
and records a subtotal for each node. It leaves the statement with the same value over new nodes;
the old nodes below are empty blocks, and nothing outside the subtree is touched. A call is counted
on the spot.
-/
namespace RobotCode

namespace Tree

mutual
/-- The records of all nodes of a value, each after those of its pieces. -/
def subtotals : Tree → List Subtotal
  | .block ts => subtotalsOf ts ++ [⟨.block,(Tree.block ts).primitives.length⟩]
  | .guarded g c ts => subtotalsOf ts ++ [⟨g.kind,(Tree.guarded g c ts).primitives.length⟩]
  | .call name => [⟨.call,(Tree.call name).primitives.length⟩]
  | .pending _ => []

def subtotalsOf : List Tree → List Subtotal
  | [] => []
  | t :: ts => t.subtotals ++ subtotalsOf ts
end

/-- The primitive calls of several values together. -/
def callsIn (ts : List Tree) : ℕ := (ts.map fun t => t.primitives.length).sum

theorem callsIn_cons (t : Tree) (ts : List Tree) :
    callsIn (t :: ts) = t.primitives.length + callsIn ts := by
  rw [callsIn, List.map_cons, List.sum_cons]
  rfl

theorem length_filterMap_callsOf (ts : List Tree) :
    ((callsOf ts).filterMap Primitive.ofName?).length = callsIn ts := by
  rw [callsOf_eq_flatMap, List.filterMap_flatMap, List.length_flatMap]
  rfl

theorem length_primitives_block (ts : List Tree) : (block ts).primitives.length = callsIn ts :=
  length_filterMap_callsOf ts

theorem length_primitives_guarded (g : Guarded) (c : Condition) (ts : List Tree) :
    (guarded g c ts).primitives.length = callsIn ts :=
  length_filterMap_callsOf ts

theorem length_primitives_call (name : String) :
    (call name).primitives.length = if Primitive.isPrimitive name then 1 else 0 := by
  unfold Primitive.isPrimitive
  cases h : Primitive.ofName? name <;> simp [primitives, calls, h]

end Tree
open Store
open List (Forall₂)
variable {s t : Store} {r : NodeId} (records : List Subtotal)

namespace TallyM

variable {records} in
theorem edit_of_ok {α : Type} {x : StoreM α} {a : α} (h : x s = .ok a t) :
    edit x ⟨s,records⟩ = .ok a ⟨t,records⟩ := by
  simp only [edit, h]

end TallyM
namespace Tally
open TallyM Statement

/-- What counting `n` has done to the store. -/
structure Recounted (s : Store) (n : NodeId) (w : Tree) (t : Store) : Prop where
  edits : Edits True s t
  reworks : s.Reworks {m | s.Within n m} {m | t.Within n m} t
  holds : t.Holds n w
  not_mem_of_below : ∀ m, t.Below n m → m ∉ s

/-- `count` does what counting has to do, on all nodes of values no deeper than `d`. -/
def Recounts (d : ℕ) (count : NodeId → TallyM ℕ) : Prop :=
  ∀ {s n w} (records), s.Sound → s.Acyclic → n ∈ s → s.treeWithin? d n = some w →
    w.firstPending? = none → ∃ t,
      count n ⟨s,records⟩ = .ok w.primitives.length ⟨t,w.subtotals.reverse ++ records⟩ ∧
      Recounted s n w t

/-- A call is counted on the spot, and everything is as it was. -/
theorem callCalls_of_call {name : String} (hs : s.Sound) (hr : s.read r = ⟨.call name,[]⟩) :
    ∃ t, callCalls r ⟨s,records⟩ = .ok (Tree.call name).primitives.length ⟨t,records⟩ ∧
      Edits True s t ∧ ∀ m, t.read m = s.read m := by
  have hm : r ∈ s := mem_of_read_ne_empty (by simp [hr])
  let mid := s.write r ⟨.pending .call,[]⟩
  let done := mid.write r ⟨.call name,[]⟩
  have hmid : disassembleCall r s = .ok name mid := disassembleCall_of_call hr
  have hready : mid.ready .call r = .ok () :=
    ready_of_pending (by rw [read_write_self]; rfl)
  have hdone : assembleCall r (.text name) mid = .ok () done := assembleCall_of_ready hready name
  have hmid' : Edits True s mid := (leads_disassembleCall hs hm).edits_of_ok hmid
  have hdone' : Edits True mid done := (leads_assembleCall (hmid'.mem hm)).edits_of_ok hdone
  refine ⟨done,?_,hmid'.trans hdone',fun m => ?_⟩
  · unfold callCalls
    rw [bind_of_ok (edit_of_ok hmid), bind_of_ok (edit_of_ok hdone), Tree.length_primitives_call]
    rfl
  · rw [read_write, read_write]
    split
    next h => rw [h, hr]
    next => rfl

theorem recounts_callCalls {name : String} (hs : s.Sound) (hr : s.read r = ⟨.call name,[]⟩) :
    ∃ t, callCalls r ⟨s,records⟩ = .ok (Tree.call name).primitives.length ⟨t,records⟩ ∧
      Recounted s r (.call name) t := by
  obtain ⟨t,ht,he,hread⟩ := callCalls_of_call records hs hr
  have hwithin : ∀ m, t.Within r m ↔ s.Within r m := fun m => Within.congr fun k _ => hread k
  refine ⟨t,ht,he,⟨he.size_le,fun m _ _ => hread m,fun m hF hG => ?_⟩,?_,fun m hb => ?_⟩
  · rw [hread, read_of_not_mem (hF.resolve_left fun h => hG ((hwithin m).mpr h))]
  · exact holds_of_read (l := .call name) ((hread r).trans hr) .nil
  · obtain ⟨c,hc,_⟩ := below_iff.mp hb
    exact absurd ((child_iff_of_read ((hread r).trans hr)).mp hc) List.not_mem_nil

end Tally
end RobotCode
