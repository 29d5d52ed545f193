import RobotCode.Proofs.Value

/-! # The nodes of a statement in order

The nodes below a statement, each before its children or after them. Both orders are found down to a
depth that the statement does not reach, so that they are what the recursion says.
-/
namespace RobotCode.Store
variable {s : Store} {m n : NodeId} {w : Tree} {d e : ℕ}

/-- The nodes of the subtree of `n` from the top down and left to right. -/
def preorder (s : Store) (n : NodeId) : List NodeId := s.family (s.size + 1) n

/-- The nodes of the subtree of `n` down to a depth, the children from left to right and their
parent after them. -/
def postWithin (s : Store) : (depth : ℕ) → NodeId → List NodeId
  | 0, _ => []
  | d + 1, n => (s.read n).children.flatMap (s.postWithin d) ++ [n]

def postorder (s : Store) (n : NodeId) : List NodeId := s.postWithin (s.size + 1) n

section Depth
variable {f : ℕ → NodeId → List NodeId} {g : NodeId → List NodeId → List NodeId}
  (hf : ∀ d n, f (d + 1) n = g n ((s.read n).children.flatMap (f d)))
include hf

/-- Greater depths add nothing once the whole value is within reach. -/
theorem eq_of_depth_le (h : s.treeWithin? d n = some w) (hd : d ≤ e) : f e n = f d n := by
  induction d generalizing n w e with
  | zero => simp [treeWithin?] at h
  | succ d ih =>
    obtain ⟨e,rfl⟩ : ∃ k, e = k + 1 := ⟨e - 1,by omega⟩
    rw [hf, hf, List.flatMap_congr fun c hc => ?_]
    obtain ⟨u,hu⟩ := exists_treeWithin?_of_child h hc
    exact ih hu (by omega)

theorem eq_of_acyclic (ha : s.Acyclic) (n : NodeId) :
    f (s.size + 1) n = g n ((s.read n).children.flatMap (f (s.size + 1))) := by
  obtain ⟨w,hw⟩ := exists_tree? ha n
  rw [hf, List.flatMap_congr fun c hc => ?_]
  obtain ⟨u,hu⟩ := exists_treeWithin?_of_child hw hc
  exact (eq_of_depth_le hf hu (Nat.le_succ s.size)).symm

end Depth

theorem preorder_eq (ha : s.Acyclic) (n : NodeId) :
    s.preorder n = n :: (s.read n).children.flatMap s.preorder :=
  eq_of_acyclic (g := List.cons) (fun _ _ => rfl) ha n

theorem postorder_eq (ha : s.Acyclic) (n : NodeId) :
    s.postorder n = (s.read n).children.flatMap s.postorder ++ [n] :=
  eq_of_acyclic (g := fun n ns => ns ++ [n]) (fun _ _ => rfl) ha n

theorem postWithin_perm (s : Store) (d : ℕ) (n : NodeId) :
    (s.postWithin d n).Perm (s.family d n) := by
  induction d generalizing n with
  | zero => exact .refl _
  | succ d ih =>
    rw [postWithin, family]
    exact (List.perm_append_singleton ..).trans ((List.Perm.flatMap_left _ fun c _ => ih c).cons n)

theorem mem_postWithin (h : s.treeWithin? d n = some w) : m ∈ s.postWithin d n ↔ s.Within n m :=
  (s.postWithin_perm d n).mem_iff.trans (mem_family h)

theorem mem_preorder (h : s.tree? n = some w) : m ∈ s.preorder n ↔ s.Within n m := mem_family h

theorem mem_postorder (h : s.tree? n = some w) : m ∈ s.postorder n ↔ s.Within n m :=
  mem_postWithin h

theorem Sound.nodup_postorder (hs : s.Sound) (ha : s.Acyclic) (h : s.tree? n = some w) :
    (s.postorder n).Nodup :=
  (s.postWithin_perm _ n).nodup_iff.mpr (hs.nodup_family ha h)

end RobotCode.Store
