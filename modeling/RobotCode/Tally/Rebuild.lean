import RobotCode.Statement.Builders
import RobotCode.Statement.View

/-! # Counting by taking apart

The number of calls to primitive instructions in a statement, found by the operations on statements
alone: each node is taken apart, its pieces are counted, and it is put together again. Procedures
are counted as calls to something else. Every node counted leaves a record, after those of its
pieces.
-/
namespace RobotCode

/-- What a node of the given kind adds up to. -/
structure Subtotal where
  kind : Kind
  calls : Nat
  deriving DecidableEq, Repr

def Subtotal.message (t : Subtotal) : String :=
  t.kind.name ++ " statement: " ++ toString t.calls ++ " primitive call(s)"

/-- A store, and the records of the nodes counted so far, the latest first. -/
structure Progress where
  store : Store
  records : List Subtotal := []

abbrev TallyM := EStateM Fault Progress

namespace TallyM

def edit (x : StoreM α) : TallyM α
  | ⟨s, records⟩ =>
    match x s with
    | .ok a s => .ok a ⟨s, records⟩
    | .error e s => .error e ⟨s, records⟩

def record (t : Subtotal) : TallyM Unit
  | ⟨s, records⟩ => .ok () ⟨s, t :: records⟩

end TallyM

namespace Tally
open TallyM Statement

/-- Takes each child of a block out, counts it, and puts it back in its place. -/
def blockCalls (count : NodeId → TallyM Nat) (r : NodeId) : TallyM Nat := do
  let n ← edit (length r)
  (List.range n).foldlM (fun total (i : Nat) => do
    let child ← edit (remove r (.int i))
    let calls ← count child
    edit (add r (.int i) (.statement child))
    return total + calls) 0

/-- Takes the bodies into new blocks, counts them there, and puts the statement together again. -/
def guardedCalls (count : NodeId → TallyM Nat) (g : Guarded) (r : NodeId) : TallyM Nat := do
  let outs ← (List.replicate g.arity ()).mapM fun _ => edit create
  let test ← edit (disassemble g r (outs.map .statement))
  let calls ← outs.foldlM (fun total out => do return total + (← count out)) 0
  edit (assemble g r (.condition test) (outs.map .statement))
  return calls

def callCalls (r : NodeId) : TallyM Nat := do
  let name ← edit (disassembleCall r)
  edit (assembleCall r (.text name))
  return if Primitive.isPrimitive name then 1 else 0

def rebuildWithin : (depth : Nat) → NodeId → TallyM Nat
  | 0, _ => throw .endless
  | d + 1, r => do
    let k ← edit (kind r)
    let calls ← match k with
      | .block => blockCalls (rebuildWithin d) r
      | .ifThen => guardedCalls (rebuildWithin d) .ifThen r
      | .ifElse => guardedCalls (rebuildWithin d) .ifElse r
      | .whileDo => guardedCalls (rebuildWithin d) .whileDo r
      | .call => callCalls r
    record ⟨k, calls⟩
    return calls

/-- The count together with the records of all nodes. -/
def rebuild (r : NodeId) : TallyM Nat := do
  let depth ← edit (StoreM.ask fun s => .ok (s.size + 1))
  rebuildWithin depth r

/-- The number of calls to primitive instructions, and the records made on the way. -/
def countLogged (a : Argument) (s : Store) : Except Fault Nat × List Subtotal × Store :=
  match a.toStatement "kind" with
  | .error e => (.error e, [], s)
  | .ok r =>
    match rebuild r ⟨s, []⟩ with
    | .ok calls ⟨s, records⟩ => (.ok calls, records.reverse, s)
    | .error e ⟨s, records⟩ => (.error e, records.reverse, s)

def count (a : Argument) : StoreM Nat := fun s =>
  match countLogged a s with
  | (.ok calls, _, s) => .ok calls s
  | (.error e, _, s) => .error e s

end Tally
end RobotCode
