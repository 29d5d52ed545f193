import Mathlib.Data.List.Nodup
import Mathlib.Logic.Relation
import RobotCode.Proofs.Fields

/-! # The store as a graph

Every node points at its children. A store is a forest if no node is a child twice and none lies
below itself. All changes of a store come down to new empty blocks, to writes of one node, and to
moves of a state from node to node; for each of them this module says which paths it can add.
-/
namespace RobotCode.Store
open Relation
variable {s : Store} {a b c n p q x y : NodeId} {v : Node}

/-- `c` is one of the statements directly below `p`. -/
def Child (s : Store) (p c : NodeId) : Prop := c ∈ (s.read p).children

/-- `b` is a body of the guarded statement `r`. -/
def Body (s : Store) (r b : NodeId) : Prop :=
  s.Child r b ∧ ∃ g c, (s.read r).label = .guarded g c

/-- `b` lies strictly below `a`. -/
def Below (s : Store) : NodeId → NodeId → Prop := TransGen s.Child

/-- `b` belongs to the subtree of `a`: it is `a` itself or lies below it. -/
def Within (s : Store) : NodeId → NodeId → Prop := ReflTransGen s.Child

/-- No statement has `n` directly below it. -/
def IsRoot (s : Store) (n : NodeId) : Prop := ∀ p, ¬ s.Child p n

/-- The children of all nodes, one list after another. -/
def childLists (s : Store) : List NodeId := s.cells.toList.flatMap Cell.children

def NoSharing (s : Store) : Prop := s.childLists.Nodup

def Acyclic (s : Store) : Prop := ∀ n, ¬ s.Below n n

/-- `n`, or a node below it, lies below itself. -/
def Circular (s : Store) (n : NodeId) : Prop := ∃ m, s.Within n m ∧ s.Below m m

theorem Acyclic.not_circular (h : s.Acyclic) (n : NodeId) : ¬ s.Circular n :=
  fun ⟨m,_,hm⟩ => h m hm

structure Forest (s : Store) : Prop where
  noSharing : s.NoSharing
  acyclic : s.Acyclic

theorem Child.below (h : s.Child a b) : s.Below a b := TransGen.single h

theorem Below.trans (h : s.Below a b) (k : s.Below b c) : s.Below a c := TransGen.trans h k

theorem Below.within (h : s.Below a b) : s.Within a b := h.to_reflTransGen

theorem Within.below (h : s.Within a b) (k : s.Below b c) : s.Below a c := TransGen.trans_right h k

theorem Below.within_trans (h : s.Below a b) (k : s.Within b c) : s.Below a c :=
  TransGen.trans_left h k

theorem Within.trans (h : s.Within a b) (k : s.Within b c) : s.Within a c :=
  ReflTransGen.trans h k

theorem within_refl (s : Store) (n : NodeId) : s.Within n n := ReflTransGen.refl

theorem within_iff : s.Within a b ↔ b = a ∨ s.Below a b := reflTransGen_iff_eq_or_transGen

theorem below_iff : s.Below a b ↔ ∃ c, s.Child a c ∧ s.Within c b := TransGen.head'_iff

theorem not_below_of_empty (h : s.read a = {}) : ¬ s.Below a b := by
  intro hb
  obtain ⟨c,hc,_⟩ := below_iff.mp hb
  rw [Child, h] at hc
  exact List.not_mem_nil hc

theorem below_iff_tail : s.Below a b ↔ ∃ c, s.Within a c ∧ s.Child c b := TransGen.tail'_iff

theorem IsRoot.not_below (h : s.IsRoot b) : ¬ s.Below a b := by
  intro hb
  obtain ⟨c,_,hc⟩ := below_iff_tail.mp hb
  exact h c hc

theorem IsRoot.eq_of_within (h : s.IsRoot b) (hw : s.Within a b) : b = a := by
  rcases within_iff.mp hw with e | hb
  · exact e
  · exact absurd hb h.not_below

theorem Child.mem (h : s.Child p c) : p ∈ s := by
  by_contra hp
  rw [Child, read_of_not_mem hp] at h
  simp at h

theorem child_iff_of_read {l : Label} {cs : List NodeId} (h : s.read p = ⟨l,cs⟩) :
    s.Child p c ↔ c ∈ cs := by rw [Child, h]

theorem Child.not_below (h : s.Child a b) (hs : s.Acyclic) : ¬ s.Below b a := fun hb =>
  hs a (h.below.trans hb)

theorem Below.mem (h : s.Below a b) : a ∈ s := by
  obtain ⟨c,hc,_⟩ := below_iff.mp h
  exact hc.mem

theorem children_eq_getElem {i : ℕ} (h : i < s.cells.toList.length) :
    (s.read ⟨i⟩).children = s.cells.toList[i].children := by
  have hi : i < s.cells.size := by simpa using h
  simp [read, Cell.node, cell, Array.getD, hi]

theorem mem_childLists : c ∈ s.childLists ↔ ∃ p, s.Child p c := by
  constructor
  · intro h
    obtain ⟨v,hv,hc⟩ := List.mem_flatMap.mp h
    obtain ⟨i,hi,rfl⟩ := List.mem_iff_getElem.mp hv
    exact ⟨⟨i⟩,by rwa [Child, children_eq_getElem hi]⟩
  · rintro ⟨⟨i⟩,hc⟩
    have hi : i < s.cells.toList.length := by simpa [mem_iff, size] using hc.mem
    rw [Child, children_eq_getElem hi] at hc
    exact List.mem_flatMap.mpr ⟨_,List.getElem_mem hi,hc⟩

theorem isRoot_iff : s.IsRoot n ↔ n ∉ s.childLists := by
  rw [mem_childLists, not_exists]
  rfl

instance (s : Store) (n : NodeId) : Decidable (s.IsRoot n) := decidable_of_iff' _ isRoot_iff

/-- The property in terms of parents: a child list repeats nothing, and a node has one parent. -/
theorem noSharing_iff : s.NoSharing ↔
    (∀ p, (s.read p).children.Nodup) ∧ ∀ p q c, s.Child p c → s.Child q c → p = q := by
  rw [NoSharing, childLists, List.nodup_flatMap, List.pairwise_iff_getElem]
  constructor
  · rintro ⟨hn,hd⟩
    refine ⟨?_,?_⟩
    · rintro ⟨i⟩
      by_cases hi : i < s.cells.toList.length
      · rw [children_eq_getElem hi]
        exact hn _ (List.getElem_mem hi)
      · rw [read_of_not_mem (by simpa [mem_iff, size] using hi)]
        exact List.nodup_nil
    · rintro ⟨i⟩ ⟨j⟩ c hp hq
      have hi : i < s.cells.toList.length := by simpa [mem_iff, size] using hp.mem
      have hj : j < s.cells.toList.length := by simpa [mem_iff, size] using hq.mem
      rw [Child, children_eq_getElem hi] at hp
      rw [Child, children_eq_getElem hj] at hq
      rcases Nat.lt_trichotomy i j with h | rfl | h
      · exact absurd hq (hd i j hi hj h hp)
      · rfl
      · exact absurd hp (hd j i hj hi h hq)
  · rintro ⟨hn,hu⟩
    refine ⟨?_,?_⟩
    · intro v hv
      obtain ⟨i,hi,rfl⟩ := List.mem_iff_getElem.mp hv
      exact children_eq_getElem hi ▸ hn ⟨i⟩
    · intro i j hi hj hlt c hp hq
      have h := hu ⟨i⟩ ⟨j⟩ c (by rwa [Child, children_eq_getElem hi])
        (by rwa [Child, children_eq_getElem hj])
      rw [NodeId.mk.injEq] at h
      omega

/-- Paths that start within the nodes where two stores agree are the same in both. -/
theorem Within.congr {t : Store} (h : ∀ m, s.Within a m → t.read m = s.read m) :
    t.Within a b ↔ s.Within a b := by
  constructor
  · intro hw
    induction hw with
    | refl => exact within_refl s a
    | tail _ hc ih => exact ih.tail (by rwa [Child, h _ ih] at hc)
  · intro hw
    induction hw with
    | refl => exact within_refl t a
    | tail hw hc ih => exact ih.tail (by rw [Child, h _ hw]; exact hc)

/-- A path stays while none of the nodes on it changes, the last one apart. -/
theorem Below.of_kept {t : Store} (h : s.Below a b)
    (ht : ∀ m, s.Within a m → s.Below m b → t.read m = s.read m) : t.Below a b := by
  induction h using TransGen.head_induction_on with
  | @single a hc =>
    have hc' : t.Child a b := by
      rw [Child, ht a (within_refl s a) hc.below]
      exact hc
    exact hc'.below
  | @head a c hc hb ih =>
    have hc' : t.Child a c := by
      rw [Child, ht a (within_refl s a) (hc.below.trans hb)]
      exact hc
    exact hc'.below.trans (ih fun m hm => ht m (hc.below.within.trans hm))

theorem Within.of_kept {t : Store} (h : s.Within a b)
    (ht : ∀ m, s.Within a m → s.Below m b → t.read m = s.read m) : t.Within a b := by
  rcases within_iff.mp h with rfl | hb
  · exact within_refl t b
  · exact (hb.of_kept ht).within

theorem read_push_empty (s : Store) (n : NodeId) : (s.push {}).read n = s.read n := by
  rw [read_push]
  split
  next h =>
    rw [h, read_next]
    rfl
  next => rfl

theorem child_push_empty : (s.push {}).Child p c ↔ s.Child p c := by
  rw [Child, Child, read_push_empty]

theorem child_push_empty_eq (s : Store) : (s.push {}).Child = s.Child :=
  funext fun _ => funext fun _ => propext child_push_empty

theorem child_put {f : Cell} :
    (s.put n f).Child p c ↔ if p = n then c ∈ f.children else s.Child p c := by
  rw [Child, read_put]
  split <;> rfl

theorem child_write : (s.write n v).Child p c ↔ if p = n then c ∈ v.children else s.Child p c := by
  rw [write, child_put, Cell.children_become]

/-- A path that is new after a write passes from the node written to one of its new children. -/
theorem below_write (h : (s.write n v).Below x y)
    (hv : ∀ c ∈ v.children, s.Child n c ∨ ¬ s.Within c n) :
    s.Below x y ∨ s.Within x n ∧ ∃ c ∈ v.children, ¬ s.Within c n ∧ s.Within c y := by
  induction h with
  | @single z hc =>
    rw [child_write] at hc
    by_cases hx : x = n
    · rw [if_pos hx] at hc
      rcases hv z hc with ho | hn
      · exact Or.inl (hx ▸ ho.below)
      · exact Or.inr ⟨hx ▸ within_refl s x,z,hc,hn,within_refl s z⟩
    · rw [if_neg hx] at hc
      exact Or.inl hc.below
  | @tail y z _ hc ih =>
    rw [child_write] at hc
    by_cases hy : y = n
    · subst hy
      rw [if_pos rfl] at hc
      rcases ih with hb | ⟨_,d,_,hd,hw⟩
      · rcases hv z hc with ho | hn
        · exact Or.inl (hb.trans ho.below)
        · exact Or.inr ⟨hb.within,z,hc,hn,within_refl s z⟩
      · exact absurd hw hd
    · rw [if_neg hy] at hc
      rcases ih with hb | ⟨hx,d,hd,hn,hw⟩
      · exact Or.inl (hb.trans hc.below)
      · exact Or.inr ⟨hx,d,hd,hn,hw.tail hc⟩

theorem Acyclic.write (hs : s.Acyclic) (hv : ∀ c ∈ v.children, s.Child n c ∨ ¬ s.Within c n) :
    (s.write n v).Acyclic := by
  intro x hx
  rcases below_write hx hv with h | ⟨hw,c,_,hn,hc⟩
  · exact hs x h
  · exact hn (hc.trans hw)

theorem cell_transfer (s : Store) (a b n : NodeId) :
    (s.transfer a b).cell n = if n = a then {} else if n = b then s.cell a else s.cell n := by
  rw [transfer, cell_put, cell_put]

theorem read_transfer (s : Store) (a b n : NodeId) :
    (s.transfer a b).read n = if n = a then {} else if n = b then s.read a else s.read n := by
  rw [transfer, read_put, read_put]
  rfl

@[simp] theorem size_transfer (ha : a ∈ s) (hb : b ∈ s) : (s.transfer a b).size = s.size := by
  rw [transfer, size_put_of_mem (mem_put ha), size_put_of_mem hb]

theorem child_transfer : (s.transfer a b).Child p c ↔
    p ≠ a ∧ if p = b then s.Child a c else s.Child p c := by
  rw [Child, read_transfer]
  by_cases ha : p = a
  · simp [ha]
  · rw [if_neg ha, and_iff_right ha]
    split <;> rfl

/-- A path that is new after a move passes from the target to what was below the source. -/
theorem below_transfer (h : (s.transfer a b).Below x y) :
    s.Below x y ∨ s.Within x b ∧ s.Below a y := by
  induction h with
  | single hc =>
    obtain ⟨_,hc⟩ := child_transfer.mp hc
    split at hc
    next hx => exact Or.inr ⟨hx ▸ within_refl s x,hc.below⟩
    next => exact Or.inl hc.below
  | @tail y z _ hc ih =>
    obtain ⟨_,hc⟩ := child_transfer.mp hc
    split at hc
    next hy =>
      rw [hy] at ih
      rcases ih with hb | ⟨hx,_⟩
      · exact Or.inr ⟨hb.within,hc.below⟩
      · exact Or.inr ⟨hx,hc.below⟩
    next =>
      rcases ih with hb | ⟨hx,hb⟩
      · exact Or.inl (hb.trans hc.below)
      · exact Or.inr ⟨hx,hb.trans hc.below⟩

theorem Acyclic.transfer (hs : s.Acyclic) (hb : ¬ s.Below a b) : (s.transfer a b).Acyclic := by
  intro x hx
  rcases below_transfer hx with h | ⟨hw,h⟩
  · exact hs x h
  · exact hb (h.within_trans hw)

/-- A state that goes to a node below its own makes a cycle there. -/
theorem below_self_of_transfer (hs : s.Acyclic) (h : s.Below a b) : (s.transfer a b).Below b b := by
  obtain ⟨c,hac,hcb⟩ := below_iff.mp h
  have hba : b ≠ a := by
    rintro rfl
    exact hs b h
  have hbc : (s.transfer a b).Child b c := child_transfer.mpr ⟨hba,by rwa [if_pos rfl]⟩
  refine hbc.below.within_trans (hcb.of_kept fun m hcm hmb => ?_)
  have hma : m ≠ a := by
    rintro rfl
    exact hs m (hac.below.within_trans hcm)
  have hmb' : m ≠ b := by
    rintro rfl
    exact hs m hmb
  rw [read_transfer, if_neg hma, if_neg hmb']

/-- In a forest no child of a node lies below another one. -/
theorem Forest.not_child_of_below (hs : s.Forest) (hb : s.Child n b) (hm : s.Below b a) :
    ¬ s.Child n a := by
  intro hc
  obtain ⟨p,hp,hpa⟩ := below_iff_tail.mp hm
  have hpn : p = n := (noSharing_iff.mp hs.noSharing).2 p n a hpa hc
  exact hs.acyclic n (hb.below.within_trans (hpn ▸ hp))

/-- In a forest the subtrees of two children of one node have nothing in common. -/
theorem Forest.siblings_disjoint (hs : s.Forest) (hb : s.Child n b) (hc : s.Child n c)
    (hne : b ≠ c) (hba : s.Within b a) : ¬ s.Within c a := by
  induction hba with
  | refl =>
    intro hcb
    exact hs.not_child_of_below hc ((within_iff.mp hcb).resolve_left hne) hb
  | @tail p a hbp hpa ih =>
    intro hca
    rcases within_iff.mp hca with rfl | hca
    · exact hs.not_child_of_below hb (below_iff_tail.mpr ⟨p,hbp,hpa⟩) hc
    · obtain ⟨q,hq,hqa⟩ := below_iff_tail.mp hca
      exact ih ((noSharing_iff.mp hs.noSharing).2 q p a hqa hpa ▸ hq)

end RobotCode.Store
