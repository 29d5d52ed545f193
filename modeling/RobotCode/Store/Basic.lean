import RobotCode.Tree

/-! # The store

Statements are cells with an identity. A cell holds the fields of one statement, among them the
identities of the statements directly below it, so a change made through one reference shows through
all others. What the fields say is read off as a node: a label over a list of children. Every
identity names a cell from the start, an empty block; the store keeps those in use.
-/
namespace RobotCode

structure NodeId where
  index : Nat
  deriving DecidableEq, Repr

/-- What a node says about itself. Of a statement that has been taken apart it says the kind that it
has to be assembled as, and nothing else. -/
inductive Label where
  | block
  | guarded (kind : Guarded) (test : Condition)
  | call (name : String)
  | pending (awaited : Kind)
  deriving DecidableEq, Repr

namespace Label

def kind : Label → Kind
  | .block => .block
  | .guarded g _ => g.kind
  | .call _ => .call
  | .pending k => k

def test? : Label → Option Condition
  | .guarded _ c => some c
  | _ => none

def name? : Label → Option String
  | .call name => some name
  | _ => none

/-- The kind that a statement taken apart has to be assembled as. -/
def awaited? : Label → Option Kind
  | .pending k => some k
  | _ => none

/-- The value made of a label and the values below it. -/
def tree : Label → List Tree → Tree
  | .block, ts => .block ts
  | .guarded g c, ts => .guarded g c ts
  | .call name, _ => .call name
  | .pending k, _ => .pending k

end Label

structure Node where
  label : Label := .block
  children : List NodeId := []
  deriving DecidableEq, Repr

instance : Inhabited Node := ⟨{}⟩

/-- The fields of a statement. They are kept apart from each other, and a statement that has been
taken apart still has a kind of its own besides the one it has to be assembled as. -/
structure Cell where
  kind : Kind := .block
  test? : Option Condition := none
  name? : Option String := none
  children : List NodeId := []
  awaited? : Option Kind := none
  deriving DecidableEq, Repr

namespace Cell

def block (parts : List NodeId) : Cell := { children := parts }

def guarded (g : Guarded) (test : Condition) (bodies : List NodeId) : Cell :=
  { kind := g.kind, test? := some test, children := bodies }

def call (name : String) : Cell := { kind := .call, name? := some name }

/-- A statement of kind `k` that is to be assembled as such again. -/
def apart (k : Kind) : Cell := { kind := k, awaited? := some k }

/-- The fields as a label. Only a guarded statement without a test and a call without a name are
given something that they do not have. -/
def label (c : Cell) : Label :=
  match c.awaited?, c.kind with
  | some k, _ => .pending k
  | none, .block => .block
  | none, .ifThen => .guarded .ifThen (c.test?.getD .always)
  | none, .ifElse => .guarded .ifElse (c.test?.getD .always)
  | none, .whileDo => .guarded .whileDo (c.test?.getD .always)
  | none, .call => .call (c.name?.getD "")

def node (c : Cell) : Node := ⟨c.label, c.children⟩

variable {c : Cell}

theorem label_of_some {k : Kind} (h : c.awaited? = some k) : c.label = .pending k := by
  simp [label, h]

@[simp] theorem awaited?_label (c : Cell) : c.label.awaited? = c.awaited? := by
  obtain ⟨k, _, _, _, a⟩ := c
  cases a with
  | none => cases k <;> rfl
  | some j => rfl

theorem kind_label (h : c.awaited? = none) : c.label.kind = c.kind := by
  obtain ⟨k, _, _, _, a⟩ := c
  cases h
  cases k <;> rfl

theorem node_eq_empty_iff (h : c.awaited? = none) :
    c.node = {} ↔ c.kind = .block ∧ c.children = [] := by
  obtain ⟨k, _, _, cs, a⟩ := c
  cases h
  cases k <;> simp [node, label]

end Cell

structure Store where
  cells : Array Cell := #[]
  deriving DecidableEq, Repr

namespace Store

def size (s : Store) : Nat := s.cells.size

instance : Membership NodeId Store := ⟨fun s n => n.index < s.size⟩

theorem mem_iff {s : Store} {n : NodeId} : n ∈ s ↔ n.index < s.size := .rfl

instance (s : Store) (n : NodeId) : Decidable (n ∈ s) := inferInstanceAs (Decidable (_ < _))

def cell (s : Store) (n : NodeId) : Cell := s.cells.getD n.index {}

def read (s : Store) (n : NodeId) : Node := (s.cell n).node

/-- The identity that the next cell gets. -/
def next (s : Store) : NodeId := ⟨s.size⟩

def push (s : Store) (c : Cell) : Store := ⟨s.cells.push c⟩

/-- Writing beyond the end takes the identities up to there into use, as empty blocks. -/
def put (s : Store) (n : NodeId) (c : Cell) : Store :=
  if n.index < s.cells.size then ⟨s.cells.setIfInBounds n.index c⟩
  else ⟨(s.cells ++ Array.replicate (n.index - s.cells.size) ({} : Cell)).push c⟩

@[simp] theorem cell_empty (n : NodeId) : ({} : Store).cell n = {} := by simp [cell]

@[simp] theorem read_empty (n : NodeId) : ({} : Store).read n = {} := by
  rw [read, cell_empty]
  rfl

theorem cell_of_not_mem {s : Store} {n : NodeId} (h : n ∉ s) : s.cell n = {} := by
  simp only [mem_iff, size] at h
  simp [cell, Array.getD, h]

theorem read_of_not_mem {s : Store} {n : NodeId} (h : n ∉ s) : s.read n = {} := by
  rw [read, cell_of_not_mem h]
  rfl

theorem next_not_mem (s : Store) : s.next ∉ s := by simp [mem_iff, next]

theorem ne_next {s : Store} {n : NodeId} (h : n ∈ s) : n ≠ s.next := fun e =>
  s.next_not_mem (e ▸ h)

@[simp] theorem read_next (s : Store) : s.read s.next = {} := read_of_not_mem s.next_not_mem

theorem cell_push (s : Store) (c : Cell) (n : NodeId) :
    (s.push c).cell n = if n = s.next then c else s.cell n := by
  obtain ⟨i⟩ := n
  simp only [cell, push, next, size, NodeId.mk.injEq, Array.getD_eq_getD_getElem?,
    Array.getElem?_push]
  split <;> rfl

theorem read_push (s : Store) (c : Cell) (n : NodeId) :
    (s.push c).read n = if n = s.next then c.node else s.read n := by
  rw [read, cell_push]
  split <;> rfl

@[simp] theorem read_push_next (s : Store) (c : Cell) : (s.push c).read s.next = c.node := by
  simp [read_push]

theorem read_push_of_mem {s : Store} {n : NodeId} (c : Cell) (h : n ∈ s) :
    (s.push c).read n = s.read n := by simp [read_push, ne_next h]

@[simp] theorem size_push (s : Store) (c : Cell) : (s.push c).size = s.size + 1 := by
  simp [size, push]

theorem mem_push {s : Store} {c : Cell} {n : NodeId} : n ∈ s.push c ↔ n ∈ s ∨ n = s.next := by
  obtain ⟨i⟩ := n
  simp only [mem_iff, size_push, next, NodeId.mk.injEq]
  omega

theorem cell_put (s : Store) (n m : NodeId) (c : Cell) :
    (s.put n c).cell m = if m = n then c else s.cell m := by
  obtain ⟨i⟩ := n
  obtain ⟨j⟩ := m
  simp only [cell, put, NodeId.mk.injEq, Array.getD_eq_getD_getElem?]
  by_cases h : i < s.cells.size
  · simp only [h, if_true, Array.getElem?_setIfInBounds]
    by_cases hj : i = j
    · subst hj
      simp
    · simp [hj, Ne.symm hj]
  · simp only [h, if_false, Array.getElem?_push, Array.size_append, Array.size_replicate]
    have hi : s.cells.size + (i - s.cells.size) = i := by omega
    rw [hi]
    split
    · rfl
    · by_cases hj : j < s.cells.size
      · simp [Array.getElem?_append, hj]
      · simp only [Array.getElem?_append, hj, if_false, Array.getElem?_replicate]
        split <;> simp [Array.getElem?_eq_none (Nat.le_of_not_lt hj)]

theorem read_put (s : Store) (n m : NodeId) (c : Cell) :
    (s.put n c).read m = if m = n then c.node else s.read m := by
  rw [read, cell_put]
  split <;> rfl

theorem size_put (s : Store) (n : NodeId) (c : Cell) :
    (s.put n c).size = max s.size (n.index + 1) := by
  simp only [size, put]
  split <;> simp <;> omega

theorem size_put_of_mem {s : Store} {n : NodeId} {c : Cell} (h : n ∈ s) :
    (s.put n c).size = s.size := by
  rw [mem_iff] at h
  rw [size_put]
  omega

theorem mem_put {s : Store} {n m : NodeId} {c : Cell} (h : m ∈ s) : m ∈ s.put n c := by
  rw [mem_iff] at h ⊢
  rw [size_put]
  omega

end Store
end RobotCode
