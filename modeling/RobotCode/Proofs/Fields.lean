import RobotCode.Statement.Assembly
import RobotCode.Statement.Block

/-! # Changes of fields as changes of nodes

Operations change single fields of a statement. For what is read of it each of these changes is the
writing of a node, and the label written tells which fields are touched: a statement that is taken
apart loses its test or its name, its children, and never its kind.
-/
namespace RobotCode

theorem Label.eq_pending {l : Label} {k : Kind} (h : l.awaited? = some k) : l = .pending k := by
  cases l with
  | pending j => exact congrArg _ (Option.some.inj h)
  | _ => cases h

namespace Cell
variable {c : Cell} {v : Node} {cs : List NodeId}

/-- The fields after the change that makes them read as `v`. -/
def become (c : Cell) (v : Node) : Cell :=
  match v.label with
  | .block => { c with kind := .block, children := v.children, awaited? := none }
  | .guarded g test => .guarded g test v.children
  | .call name => { Cell.call name with children := v.children }
  | .pending .call => { c with name? := none, children := v.children, awaited? := some .call }
  | .pending k => { c with test? := none, children := v.children, awaited? := some k }

@[simp] theorem children_become (c : Cell) (v : Node) : (c.become v).children = v.children := by
  obtain ⟨l,cs⟩ := v
  cases l with
  | pending k => cases k <;> rfl
  | _ => rfl

@[simp] theorem node_become (c : Cell) (v : Node) : (c.become v).node = v := by
  obtain ⟨l,cs⟩ := v
  cases l with
  | block => rfl
  | guarded g test => cases g <;> rfl
  | call name => rfl
  | pending k => cases k <;> rfl

theorem label_become (c : Cell) (v : Node) : (c.become v).label = v.label :=
  congrArg Node.label (c.node_become v)

theorem kind_become {k : Kind} (h : v.label.awaited? = some k) : (c.become v).kind = c.kind := by
  obtain ⟨l,cs⟩ := v
  cases l with
  | pending k => cases k <;> rfl
  | _ => cases h

theorem become_apart (c : Cell) (g : Guarded) : c.become ⟨.pending g.kind,[]⟩ =
    { c with test? := none, children := [], awaited? := some g.kind } := by
  cases g <;> rfl

theorem kind_eq_block (h : c.label = .block) : c.kind = .block ∧ c.awaited? = none := by
  obtain ⟨k,_,_,_,a⟩ := c
  cases a with
  | none => cases k <;> simp_all [label]
  | some j => cases h

theorem label_eq_of_children (h : c.awaited? = none) (cs : List NodeId) :
    label { c with children := cs, awaited? := none } = c.label := by
  obtain ⟨k,_,_,_,_⟩ := c
  cases h
  cases k <;> rfl

theorem become_block (h : c.label = .block) : c.become ⟨.block,cs⟩ = { c with children := cs } := by
  obtain ⟨hk,ha⟩ := kind_eq_block h
  obtain ⟨_,_,_,_,_⟩ := c
  cases hk
  cases ha
  rfl

end Cell

namespace Store
variable {s : Store} {n m r : NodeId} {v : Node} {cs : List NodeId}

/-- The store after the fields of `n` have been changed so that they read as `v`. -/
def write (s : Store) (n : NodeId) (v : Node) : Store := s.put n ((s.cell n).become v)

theorem read_write (s : Store) (n m : NodeId) (v : Node) :
    (s.write n v).read m = if m = n then v else s.read m := by
  rw [write, read_put, Cell.node_become]

@[simp] theorem read_write_self (s : Store) (n : NodeId) (v : Node) :
    (s.write n v).read n = v := by simp [read_write]

theorem read_write_of_ne (h : m ≠ n) : (s.write n v).read m = s.read m := by simp [read_write, h]

theorem size_write (s : Store) (n : NodeId) (v : Node) :
    (s.write n v).size = max s.size (n.index + 1) := size_put ..

@[simp] theorem size_write_of_mem (h : n ∈ s) : (s.write n v).size = s.size := size_put_of_mem h

theorem mem_write (h : m ∈ s) : m ∈ s.write n v := mem_put h

theorem put_children (h : (s.read r).label = .block) :
    s.put r { s.cell r with children := cs } = s.write r ⟨.block,cs⟩ := by
  rw [write, Cell.become_block h]

end Store

namespace StoreM
variable {s : Store} {r : NodeId} {cs : List NodeId}

def write (n : NodeId) (v : Node) : StoreM Unit := fun s => .ok () (s.write n v)

theorem put_guarded (r : NodeId) (g : Guarded) (test : Condition) (cs : List NodeId) :
    put r (.guarded g test cs) = write r ⟨.guarded g test,cs⟩ := rfl

theorem put_call (r : NodeId) (name : String) : put r (.call name) = write r ⟨.call name,[]⟩ := rfl

theorem modify_apart (r : NodeId) (g : Guarded) :
    modify r (fun c => { c with test? := none, children := [], awaited? := some g.kind }) =
      write r ⟨.pending g.kind,[]⟩ := by
  funext s
  rw [modify, ← Cell.become_apart]
  rfl

theorem modify_uncalled (s : Store) (r : NodeId) :
    modify r (fun c => { c with name? := none, awaited? := some .call }) s =
      write r ⟨.pending .call,(s.read r).children⟩ s := rfl

theorem modify_children (h : (s.read r).label = .block) :
    modify r (fun c => { c with children := cs }) s = write r ⟨.block,cs⟩ s := by
  rw [modify, Store.put_children h]
  rfl

end StoreM
end RobotCode
