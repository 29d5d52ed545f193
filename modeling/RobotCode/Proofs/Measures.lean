import Mathlib.Algebra.BigOperators.Group.List.Basic
import Mathlib.Data.List.InsertIdx
import RobotCode.Proofs.Places
import RobotCode.Proofs.Views

/-! # Measures of values

A measure adds up what the nodes of a value contribute, each of them by its label alone: the nodes
themselves, the calls to primitives, the calls to one primitive. What is emptied in a value is
missing from the measure of the whole, and what is put among the parts is added to it.
-/
namespace RobotCode
open Store
variable {s : Store} {a x : NodeId} {t u w : Tree} {f : Tree → ℕ} {path : List ℕ} {i : ℕ}

section Lists
variable {α : Type} {P : α → Prop} {g : α → α} {xs : List α}

theorem forall_mem_modify (h : ∀ x ∈ xs, P x) (hg : ∀ x, P x → P (g x)) (i : ℕ) :
    ∀ x ∈ xs.modify i g, P x := by
  induction xs generalizing i with
  | nil => simp
  | cons x xs ih =>
    obtain ⟨hx,hxs⟩ := List.forall_mem_cons.mp h
    cases i with
    | zero => exact List.forall_mem_cons.mpr ⟨hg x hx,hxs⟩
    | succ i => exact List.forall_mem_cons.mpr ⟨hx,ih hxs i⟩

theorem sum_map_modify {x : α} (f : α → ℕ) (h : xs[i]? = some x) :
    ((xs.modify i g).map f).sum + f x = (xs.map f).sum + f (g x) := by
  induction xs generalizing i with
  | nil => simp at h
  | cons y xs ih =>
    cases i with
    | zero =>
      cases h
      simp only [List.modify_zero_cons, List.map_cons, List.sum_cons]
      omega
    | succ i =>
      have hrest := ih (List.getElem?_cons_succ ▸ h)
      simp only [List.modify_succ_cons, List.map_cons, List.sum_cons]
      omega

end Lists

namespace Tree

/-- The part of a value that a path leads to. -/
def at? : (path : List ℕ) → Tree → Option Tree
  | [], t => some t
  | i :: path, t => t.parts[i]?.bind (at? path)

theorem at?_cons_eq_some : t.at? (i :: path) = some u ↔
    ∃ p, t.parts[i]? = some p ∧ p.at? path = some u := by
  rw [at?, Option.bind_eq_some_iff]

theorem parts_modify (t : Tree) (i : ℕ) (g : Tree → Tree) :
    (t.label.tree (t.parts.modify i g)).parts = t.parts.modify i g := by
  cases t <;> simp [label, parts, Label.tree]

theorem label_emptyAt (t : Tree) (i : ℕ) (path : List ℕ) :
    (t.emptyAt (i :: path)).label = t.label := by rw [emptyAt, Label.label_tree]

theorem parts_emptyAt (t : Tree) (i : ℕ) (path : List ℕ) :
    (t.emptyAt (i :: path)).parts = t.parts.modify i (emptyAt path) := by
  rw [emptyAt, parts_modify]

theorem firstPending?_emptyAt (h : t.firstPending? = none) (path : List ℕ) :
    (t.emptyAt path).firstPending? = none := by
  induction path generalizing t with
  | nil => rfl
  | cons i path ih =>
    rw [firstPending?_eq_none_iff_parts] at h ⊢
    rw [label_emptyAt, parts_emptyAt]
    exact ⟨h.1,forall_mem_modify h.2 (fun _ => ih) i⟩

theorem firstPending?_insertIdx (ht : t.firstPending? = none) (hu : u.firstPending? = none)
    (i : ℕ) : (block (t.parts.insertIdx i u)).firstPending? = none := by
  refine firstPending?_eq_none_iff_parts.mpr ⟨rfl,fun p hp => ?_⟩
  rcases Statement.mem_of_mem_insertIdx hp with rfl | hp
  · exact hu
  · exact (firstPending?_eq_none_iff_parts.mp ht).2 p hp

/-- The topmost node contributes what it would have without its parts. -/
def Additive (f : Tree → ℕ) : Prop := ∀ t, f t = f (t.label.tree []) + (t.parts.map f).sum

theorem parts_tree_nil (l : Label) : (l.tree []).parts = [] := by cases l <;> rfl

theorem additive_size : Additive size := by
  intro t
  rw [t.size_eq, size_eq (t.label.tree []), parts_tree_nil]
  rfl

theorem primitives_tree_nil (l : Label) : (l.tree []).primitives = l.primitives := by
  rw [primitives_eq, Label.label_tree, parts_tree_nil, List.flatMap_nil, List.append_nil]

theorem additive_length_primitives : Additive fun t => t.primitives.length := by
  intro t
  dsimp only
  rw [t.primitives_eq, primitives_tree_nil, List.length_append, List.length_flatMap]

theorem additive_count_primitives (p : Primitive) : Additive fun t => t.primitives.count p := by
  intro t
  dsimp only
  rw [t.primitives_eq, primitives_tree_nil, List.count_append, List.count_flatMap]
  rfl

/-- What a path leads to is exchanged for an empty block. -/
theorem Additive.emptyAt (hf : Additive f) (h : t.at? path = some u) :
    f (t.emptyAt path) + f u = f t + f (.block []) := by
  induction path generalizing t with
  | nil =>
    cases h
    exact Nat.add_comm ..
  | cons i path ih =>
    obtain ⟨p,hp,hu⟩ := at?_cons_eq_some.mp h
    have hpart := ih hu
    have hparts := sum_map_modify (g := Tree.emptyAt path) f hp
    rw [hf (Tree.emptyAt (i :: path) t), hf t, label_emptyAt, parts_emptyAt]
    omega

/-- What is put among the parts of a block comes on top of what is there. -/
theorem Additive.insertIdx (hf : Additive f) (hl : t.label = .block) (hi : i ≤ t.parts.length) :
    f (.block (t.parts.insertIdx i u)) = f t + f u := by
  have hlen : i ≤ (t.parts.map f).length := by rwa [List.length_map]
  have hparts : (block (t.parts.insertIdx i u)).parts = t.parts.insertIdx i u := rfl
  rw [hf (.block (t.parts.insertIdx i u)), hf t, hl, hparts, List.map_insertIdx,
    List.CommMonoid.sum_insertIdx hlen, Nat.add_assoc, Nat.add_comm (f u)]
  rfl

end Tree

/-- A path leads from a value to the value of the node that it leads to. -/
theorem Store.Sound.at?_of_follow? (hs : s.Sound) (hw : s.Holds a w)
    (hp : s.follow? path a = some x) : ∃ u, w.at? path = some u ∧ s.Holds x u := by
  induction path generalizing a w with
  | nil =>
    cases hp
    exact ⟨w,rfl,hw⟩
  | cons i path ih =>
    obtain ⟨c,hc,hcx⟩ := follow?_cons_eq_some.mp hp
    obtain ⟨p,hp,hcp⟩ := exists_getElem?_of_forall₂ (hs.of_holds hw).2 hc
    obtain ⟨u,hu,hxu⟩ := ih hcp hcx
    exact ⟨u,Tree.at?_cons_eq_some.mpr ⟨p,hp,hu⟩,hxu⟩

end RobotCode
