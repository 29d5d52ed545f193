import Mathlib.Data.Set.Insert
import RobotCode.Proofs.Value

/-! # Footprints

`s.Reworks F G t` says that a change from `s` to `t` has touched nothing but nodes of `F` and new
ones, and that what it leaves of these outside `G` are empty blocks. Such changes compose. The
subtree of a node goes with its state when that is moved.
-/
namespace RobotCode.Store
open List (Forall₂)
variable {s t u : Store} {a b c m n : NodeId} {v : Node} {w : Tree} {F G F' G' : Set NodeId}

structure Reworks (s : Store) (F G : Set NodeId) (t : Store) : Prop where
  size_le : s.size ≤ t.size
  kept : ∀ m ∈ s, m ∉ F → t.read m = s.read m
  cleared : ∀ m, m ∈ F ∨ m ∉ s → m ∉ G → t.read m = {}

namespace Reworks

theorem mem (h : s.Reworks F G t) (hm : m ∈ s) : m ∈ t := Nat.lt_of_lt_of_le hm h.size_le

theorem of_subset (h : ∀ m ∈ s, m ∈ F → m ∈ G) : s.Reworks F G s where
  size_le := Nat.le_refl _
  kept _ _ _ := rfl
  cleared m hm hG := by
    by_cases hs : m ∈ s
    · exact absurd (h m hs (hm.resolve_right (not_not_intro hs))) hG
    · exact read_of_not_mem hs

/-- What the second change touches is no longer left by the first. -/
theorem trans (h : s.Reworks F G t) (k : t.Reworks F' G' u) :
    s.Reworks (F ∪ F') (G' ∪ G \ F') u where
  size_le := Nat.le_trans h.size_le k.size_le
  kept m hm hF := by
    rw [Set.mem_union, not_or] at hF
    rw [k.kept m (h.mem hm) hF.2, h.kept m hm hF.1]
  cleared m hm hG := by
    rw [Set.mem_union, Set.mem_sdiff, not_or] at hG
    by_cases hF' : m ∈ F' ∨ m ∉ t
    · exact k.cleared m hF' hG.1
    · rw [not_or, not_not] at hF'
      have hold : m ∈ F ∨ m ∉ s := by
        rcases hm with (hF | hf) | hs
        · exact Or.inl hF
        · exact absurd hf hF'.1
        · exact Or.inr hs
      rw [k.kept m hF'.2 hF'.1]
      exact h.cleared m hold fun hg => hG.2 ⟨hg,hF'.1⟩

theorem congr (h : s.Reworks F G t) (hF : ∀ m ∈ s, m ∈ F ↔ m ∈ F') (hG : ∀ m, m ∈ G ↔ m ∈ G') :
    s.Reworks F' G' t where
  size_le := h.size_le
  kept m hm hf := h.kept m hm fun hF' => hf ((hF m hm).mp hF')
  cleared m hm hg := by
    apply h.cleared m _ fun h => hg ((hG m).mp h)
    by_cases hs : m ∈ s
    · exact hm.imp_left (hF m hs).mpr
    · exact Or.inr hs

theorem read_or_empty (h : s.Reworks F G t) (hm : m ∈ s) (hG : m ∉ G) :
    t.read m = s.read m ∨ t.read m = {} := by
  by_cases hF : m ∈ F
  · exact Or.inr (h.cleared m (Or.inl hF) hG)
  · exact Or.inl (h.kept m hm hF)

/-- What is a child afterwards is one of a node that is still in use, or was a child before. -/
theorem child (h : s.Reworks F G t) (hc : t.Child n c) : n ∈ G ∨ n ∉ F ∧ s.Child n c := by
  by_cases hG : n ∈ G
  · exact Or.inl hG
  by_cases hF : n ∈ F ∨ n ∉ s
  · rw [Child, h.cleared n hF hG] at hc
    exact absurd hc List.not_mem_nil
  · rw [not_or, not_not] at hF
    rw [Child, h.kept n hF.2 hF.1] at hc
    exact Or.inr ⟨hF.1,hc⟩

theorem child_of_not_mem (h : s.Reworks F G t) (hF : n ∉ F) (hc : s.Child n c) : t.Child n c := by
  rwa [Child, h.kept n hc.mem hF]

end Reworks

theorem reworks_write (hn : n ∈ s) : s.Reworks {n} {n} (s.write n v) where
  size_le := Nat.le_of_eq (size_write_of_mem hn).symm
  kept m _ hm := read_write_of_ne hm
  cleared m hm hG := by
    rw [read_write_of_ne hG, read_of_not_mem (hm.resolve_left hG)]

theorem Reworks.read_of_ne (h : s.Reworks {n} {n} t) (hm : m ≠ n) : t.read m = s.read m := by
  by_cases hms : m ∈ s
  · exact h.kept m hms hm
  · rw [h.cleared m (Or.inr hms) hm, read_of_not_mem hms]

theorem Below.congr_of_moved (hr : t.read b = s.read a)
    (hk : ∀ m, s.Below a m → t.read m = s.read m) : t.Below b m ↔ s.Below a m := by
  rw [below_iff, below_iff]
  refine exists_congr fun c => ?_
  have hchild : t.Child b c ↔ s.Child a c := by rw [Child, hr, Child]
  rw [hchild]
  refine and_congr_right fun hc => Within.congr fun k hck => ?_
  exact hk k (hc.below.within_trans hck)

theorem treeWithin?_of_moved {d : ℕ} (h : s.treeWithin? d a = some w) (hr : t.read b = s.read a)
    (hk : ∀ m, s.Below a m → t.read m = s.read m) : t.treeWithin? d b = some w := by
  cases d with
  | zero => simp [treeWithin?] at h
  | succ d =>
    obtain ⟨ws,hws,rfl⟩ := treeWithin?_succ_eq_some.mp h
    rw [treeWithin?_succ_eq_some, hr]
    refine ⟨ws,(forall₂_with_mem hws).imp fun c v hc => ?_,rfl⟩
    exact treeWithin?_congr hc.2 fun m hm => hk m (Child.below hc.1 |>.within_trans hm)

theorem Holds.of_moved (h : s.Holds a w) (hr : t.read b = s.read a)
    (hk : ∀ m, s.Below a m → t.read m = s.read m) : t.Holds b w := by
  obtain ⟨d,hd⟩ := h
  exact ⟨d,treeWithin?_of_moved hd hr hk⟩

namespace Reworks
variable {r : NodeId}

/-- A change of roots leaves alone what lies below a node. -/
theorem kept_below (h : s.Reworks F G t) (hs : s.Sound) (hF : ∀ m ∈ F, s.IsRoot m)
    (hm : s.Below a m) : t.read m = s.read m :=
  h.kept m (hs.mem_of_below hm) fun hmF => (hF m hmF).not_below hm

theorem holds_of_child (h : s.Reworks F G t) (hs : s.Sound) (hF : ∀ m ∈ F, s.IsRoot m)
    (hc : s.Child r c) (hw : s.Holds c w) : t.Holds c w :=
  hw.congr fun _ hm => h.kept_below hs hF (hc.below.within_trans hm)

theorem holds_of_moved (h : s.Reworks F G t) (hs : s.Sound) (hF : ∀ m ∈ F, s.IsRoot m)
    (hr : t.read b = s.read a) (hw : s.Holds a w) : t.Holds b w :=
  hw.of_moved hr fun _ hm => h.kept_below hs hF hm

/-- What is a child of a node other than `r` was a child before, of a node that was moved or of
one that was not touched. -/
theorem exists_child {outs ns : List NodeId} (h : s.Reworks F (insert r {m | m ∈ ns}) t)
    (hmoved : Forall₂ (fun b o => t.read b = s.read o) ns outs) (hc : t.Child n m) :
    n = r ∨ ∃ q, (q ∈ outs ∨ q ∉ F) ∧ s.Child q m := by
  rcases h.child hc with (rfl | hn) | ⟨hn,hc⟩
  · exact Or.inl rfl
  · obtain ⟨o,ho,hno⟩ := exists_of_forall₂ hmoved hn
    rw [Child, hno] at hc
    exact Or.inr ⟨o,Or.inl ho,hc⟩
  · exact Or.inr ⟨n,Or.inr hn,hc⟩

end Reworks

/-- If the subtree of `n` is replaced by another one of the same value, and nothing else changes,
then only what was strictly below `n` can lose its value. -/
theorem Sound.holds_of_replaced (hs : s.Sound) (hk : ∀ m ∈ s, ¬ s.Within n m → t.read m = s.read m)
    (hn : ∀ v, s.Holds n v → t.Holds n v) (h : s.Holds a w) (ha : a ∈ s) (hb : ¬ s.Below n a) :
    t.Holds a w := by
  refine h.induction (P := fun a w => a ∈ s → ¬ s.Below n a → t.Holds a w) (fun a ws hws => ?_) ha hb
  intro ha hb
  have hself : s.Holds a ((s.read a).label.tree ws) :=
    holds_iff.mpr ⟨ws,hws.imp fun _ _ h => h.1,rfl⟩
  by_cases han : a = n
  · subst han
    exact hn _ hself
  · have hnot : ¬ s.Within n a := fun h => (within_iff.mp h).elim han hb
    rw [holds_iff, hk a ha hnot]
    refine ⟨ws,(forall₂_with_mem hws).imp fun c v hc => ?_,rfl⟩
    have hac : s.Child a c := hc.1
    apply hc.2.2 (hs.mem_of_child hac)
    intro h
    obtain ⟨p,hp,hpc⟩ := below_iff_tail.mp h
    exact hnot (hs.parent_unique hpc hac ▸ hp)

/-- The subtrees of two roots have nothing in common. -/
theorem Sound.roots_disjoint (hs : s.Sound) (ha : s.IsRoot a) (hb : s.IsRoot b) (hne : a ≠ b)
    (ham : s.Within a m) : ¬ s.Within b m := by
  induction ham with
  | refl => exact fun h => hne (ha.eq_of_within h)
  | @tail p m _ hpm ih =>
    intro hbm
    rcases within_iff.mp hbm with rfl | hbm
    · exact hb p hpm
    · obtain ⟨q,hq,hqm⟩ := below_iff_tail.mp hbm
      exact ih (hs.parent_unique hqm hpm ▸ hq)

/-- The nodes of the subtrees of several nodes. -/
def Covered (s : Store) (ns : List NodeId) : Set NodeId := {m | ∃ n ∈ ns, s.Within n m}

theorem mem_covered_cons {ns : List NodeId} :
    m ∈ s.Covered (n :: ns) ↔ s.Within n m ∨ m ∈ s.Covered ns := by
  simp [Covered]

theorem mem_covered_iff {ns : List NodeId} :
    m ∈ s.Covered ns ↔ m ∈ ns ∨ ∃ n ∈ ns, s.Below n m := by
  constructor
  · rintro ⟨n,hn,hw⟩
    rcases within_iff.mp hw with rfl | hb
    · exact Or.inl hn
    · exact Or.inr ⟨n,hn,hb⟩
  · rintro (hm | ⟨n,hn,hb⟩)
    · exact ⟨m,hm,within_refl s m⟩
    · exact ⟨n,hn,hb.within⟩

/-- The subtree of a node with children is the node and the subtrees of the children. -/
theorem within_iff_covered : s.Within n m ↔ m = n ∨ m ∈ s.Covered (s.read n).children := by
  rw [within_iff, below_iff]
  rfl

theorem Sound.mem_of_covered {ns : List NodeId} (hs : s.Sound) (hn : ∀ n ∈ ns, n ∈ s)
    (hm : m ∈ s.Covered ns) : m ∈ s := by
  obtain ⟨n,hns,hw⟩ := hm
  exact hs.mem_of_within (hn n hns) hw

theorem mem_covered_congr {ns : List NodeId}
    (h : ∀ k ∈ s.Covered ns, t.read k = s.read k) : m ∈ t.Covered ns ↔ m ∈ s.Covered ns := by
  refine exists_congr fun n => and_congr_right fun hn => Within.congr fun k hk => ?_
  exact h k ⟨n,hn,hk⟩

theorem forall₂_treeWithin?_congr {d : ℕ} {ns : List NodeId} {ws : List Tree}
    (hw : Forall₂ (fun n w => s.treeWithin? d n = some w) ns ws)
    (h : ∀ k ∈ s.Covered ns, t.read k = s.read k) :
    Forall₂ (fun n w => t.treeWithin? d n = some w) ns ws :=
  (forall₂_with_mem hw).imp fun n _ hn => treeWithin?_congr hn.2 fun k hk => h k ⟨n,hn.1,hk⟩

theorem firstPendingOf?_eq_none_iff {ts : List Tree} :
    Tree.firstPendingOf? ts = none ↔ ∀ t ∈ ts, t.firstPending? = none := by
  induction ts with
  | nil => simp [Tree.firstPendingOf?]
  | cons t ts ih =>
    rw [Tree.firstPendingOf?, List.forall_mem_cons, ← ih]
    cases t.firstPending? <;> simp

theorem firstPending?_tree {l : Label} {cs : List NodeId} {ts : List Tree} (hl : l.Admits cs)
    (hlen : cs.length = ts.length) : (l.tree ts).firstPending? = none ↔
      l.awaited? = none ∧ ∀ t ∈ ts, t.firstPending? = none := by
  rw [Tree.firstPending?_eq, Label.label_tree, Label.parts_tree hl hlen,
    ← firstPendingOf?_eq_none_iff]
  cases l.awaited? <;> simp

/-- No node of a subtree is taken apart exactly if none is in its value. -/
theorem Sound.firstPending?_eq_none_iff (hs : s.Sound) (h : s.Holds n w) :
    w.firstPending? = none ↔ ∀ m, s.Within n m → (s.read m).label.awaited? = none := by
  refine h.induction (P := fun n w => w.firstPending? = none ↔
    ∀ m, s.Within n m → (s.read m).label.awaited? = none) fun n ts hts => ?_
  rw [firstPending?_tree (hs.shaped n) hts.length_eq]
  constructor
  · rintro ⟨hl,hall⟩ m hm
    rcases hm.cases_head with rfl | ⟨c,hc,hw⟩
    · exact hl
    · obtain ⟨t,ht,_,ih⟩ := exists_of_forall₂ hts hc
      exact ih.mp (hall t ht) m hw
  · intro hall
    refine ⟨hall n (within_refl s n),fun t ht => ?_⟩
    obtain ⟨c,hc,_,ih⟩ := exists_of_forall₂ hts.flip ht
    exact ih.mpr fun m hm => hall m ((Child.below hc).within.trans hm)

end RobotCode.Store
