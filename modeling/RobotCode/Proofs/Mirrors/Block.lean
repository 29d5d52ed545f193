import RobotCode.Proofs.Mirrors.Basic

/-! # Blocks and orchards

Taking a child out of a block and putting a statement in, as seen on the trees of the roots.
-/
namespace RobotCode
open Store
open List (Forall₂)
variable {s : Store} {o : Orchard} {c m n r : NodeId} {v : Node} {w : Tree}
  {us : List (NodeId × Tree)} {cs : List NodeId} {i : ℕ}

namespace Store

section Forall₂
variable {α β : Type} {R : α → β → Prop} {xs : List α} {ys : List β}

theorem forall₂_eraseIdx (h : Forall₂ R xs ys) (i : ℕ) :
    Forall₂ R (xs.eraseIdx i) (ys.eraseIdx i) := by
  rw [List.eraseIdx_eq_take_drop_succ, List.eraseIdx_eq_take_drop_succ]
  exact List.rel_append (List.forall₂_take i h) (List.forall₂_drop (i + 1) h)

end Forall₂

/-- The children of a root do not change with it. -/
theorem Sound.holds_write (hs : s.Sound) (hm : r ∈ s) (hr : s.IsRoot r) (hc : s.Child r c)
    (hw : s.Holds c w) : (s.write r v).Holds c w := by
  refine (reworks_write hm).holds_of_child hs (fun m hmr => ?_) hc hw
  exact Set.mem_singleton_iff.mp hmr ▸ hr

theorem isRoot_write (hr : s.IsRoot n) (hv : n ∉ v.children) : (s.write r v).IsRoot n := by
  intro p hp
  rw [child_write] at hp
  split at hp
  next => exact hv hp
  next => exact hr p hp

/-- A child that its only parent gives up is a root. -/
theorem Sound.isRoot_write (hs : s.Sound) (hc : s.Child r c) (hv : c ∉ v.children) :
    (s.write r v).IsRoot c := by
  intro p hp
  rw [child_write] at hp
  split at hp
  next => exact hv hp
  next hne => exact hne (hs.parent_unique hp hc)

end Store

namespace Mirrors

/-- A root loses some of its children, which become roots of known values. -/
theorem written (h : Mirrors s o) (hm : r ∈ s) (hr : s.IsRoot r)
    (he : Edits True s (s.write r v)) (hv : ∀ c ∈ v.children, s.Child r c)
    (hk : r ∈ us.map Prod.fst)
    (hl : ∀ c, s.Child r c → c ∈ us.map Prod.fst ∨ c ∈ v.children)
    (hus : ∀ u ∈ us, (s.write r v).IsRoot u.1 ∧ (s.write r v).Holds u.1 u.2) :
    Renewed s o us (s.write r v) := by
  have hself : ∀ m ∈ ({r} : Set NodeId), m ∈ us.map Prod.fst := by
    intro m e
    rwa [Set.mem_singleton_iff.mp e]
  refine h.renewed ⟨he,reworks_write hm,?_,?_,?_,?_,?_⟩
  · exact fun m e => ⟨r,hk,hr,Set.mem_singleton_iff.mp e ▸ within_refl s r⟩
  · exact fun m e => Or.inl (hself m e)
  · intro p m hp
    rw [child_write] at hp
    split at hp
    next => exact Or.inr ⟨r,hv m hp⟩
    next => exact Or.inr ⟨p,hp⟩
  · intro q m hq
    by_cases e : q = r
    · rcases hl m (e ▸ hq) with hm | hm
      · exact Or.inr (Or.inl hm)
      · exact Or.inr (Or.inr ⟨r,by rw [child_write, if_pos rfl]; exact hm⟩)
    · exact Or.inr (Or.inr ⟨q,by rw [child_write, if_neg e]; exact hq⟩)
  · exact hus

/-- A child taken out of a block is a root, with the tree that it had as a part. -/
theorem removed (h : Mirrors s o) (hm : r ∈ s) (hr : s.IsRoot r)
    (he : Edits True s (s.write r ⟨.block,cs.eraseIdx i⟩)) (hread : s.read r = ⟨.block,cs⟩)
    (hc : cs[i]? = some c) (hw : (o r).parts[i]? = some w) :
    (s.write r ⟨.block,cs.eraseIdx i⟩).IsRoot c ∧
      Renewed s o [(c,w),(r,.block ((o r).parts.eraseIdx i))]
        (s.write r ⟨.block,cs.eraseIdx i⟩) := by
  have hchild : ∀ b, s.Child r b ↔ b ∈ cs := fun b => child_iff_of_read hread
  have hparts : Forall₂ s.Holds cs (o r).parts := by simpa [hread] using h.parts hr
  have hnodup : cs.Nodup := h.sound.nodup_of_read hread
  have hrc : s.Child r c := (hchild c).mpr (List.mem_of_getElem? hc)
  have hnot : c ∉ cs.eraseIdx i := by
    intro hmem
    obtain ⟨j,hne,hj⟩ := List.mem_eraseIdx_iff_getElem?.mp hmem
    obtain ⟨hi,_⟩ := List.getElem?_eq_some_iff.mp hc
    exact hne ((List.getElem?_inj hi hnodup).mp (hc.trans hj.symm)).symm
  obtain ⟨w',hw',hcw⟩ := exists_getElem?_of_forall₂ hparts hc
  obtain rfl : w' = w := Option.some.inj (hw'.symm.trans hw)
  have hroot : (s.write r ⟨.block,cs.eraseIdx i⟩).IsRoot c := h.sound.isRoot_write hrc hnot
  refine ⟨hroot,h.written hm hr he (fun b hb => ?_) (by simp) (fun b hb => ?_) ?_⟩
  · exact (hchild b).mpr (List.mem_of_mem_eraseIdx hb)
  · by_cases e : b = c
    · exact Or.inl (by simp [e])
    · obtain ⟨j,hj⟩ := List.mem_iff_getElem?.mp ((hchild b).mp hb)
      refine Or.inr (List.mem_eraseIdx_iff_getElem?.mpr ⟨j,?_,hj⟩)
      rintro rfl
      exact e (Option.some.inj (hj.symm.trans hc))
  · intro u hu
    rcases List.mem_pair.mp hu with rfl | rfl
    · exact ⟨hroot,h.sound.holds_write hm hr hrc hcw⟩
    · refine ⟨isRoot_write hr fun hmem => hr r ((hchild r).mpr (List.mem_of_mem_eraseIdx hmem)),?_⟩
      apply holds_of_read (l := .block) (read_write_self ..)
      refine (forall₂_with_mem (forall₂_eraseIdx hparts i)).imp fun b w hb => ?_
      exact h.sound.holds_write hm hr ((hchild b).mpr (List.mem_of_mem_eraseIdx hb.1)) hb.2

/-- What goes into a block leaves an empty block behind, and is the tree of a new part. -/
theorem added (h : Mirrors s o) (hm : r ∈ s) (hr : s.IsRoot r) (hn : s.IsRoot n)
    (hf : Statement.Free s r n) (hread : s.read r = ⟨.block,cs⟩) (hi : i ≤ cs.length)
    (he : Edits True s ((s.adopt n).write r ⟨.block,cs.insertIdx i s.next⟩)) :
    Renewed s o [(r,.block ((o r).parts.insertIdx i (o n))),(n,.block [])]
      ((s.adopt n).write r ⟨.block,cs.insertIdx i s.next⟩) := by
  let t := (s.adopt n).write r ⟨.block,cs.insertIdx i s.next⟩
  have hre : s.Reworks {r,n} {r,s.next} t := reworks_adopt r hf.mem
  have hF : ∀ m ∈ ({r,n} : Set NodeId), s.IsRoot m := by
    rintro m (rfl | rfl)
    · exact hr
    · exact hn
  have hchild : ∀ b, s.Child r b ↔ b ∈ cs := fun b => child_iff_of_read hread
  have hparts : Forall₂ s.Holds cs (o r).parts := by simpa [hread] using h.parts hr
  have hrt : t.read r = ⟨.block,cs.insertIdx i s.next⟩ := read_write_self ..
  have hnt : t.read n = {} := by
    rw [read_write_of_ne hf.ne, read_adopt, if_pos rfl]
  have hnew : t.read s.next = s.read n := by
    rw [read_write_of_ne (ne_next hm).symm, read_adopt_next hf.mem]
  have hrchild : ∀ b, t.Child r b ↔ b = s.next ∨ b ∈ cs := fun b =>
    (child_iff_of_read hrt).trans (List.mem_insertIdx hi)
  have hold : ∀ p m, t.Child p m → m ∉ s ∨ ∃ q, s.Child q m := by
    intro p m hp
    rcases hre.child hp with (hpr | hpn) | ⟨_,hp⟩
    · rcases (hrchild m).mp (hpr ▸ hp) with rfl | hm
      · exact Or.inl s.next_not_mem
      · exact Or.inr ⟨r,(hchild m).mpr hm⟩
    · rw [Child, Set.mem_singleton_iff.mp hpn, hnew] at hp
      exact Or.inr ⟨n,hp⟩
    · exact Or.inr ⟨p,hp⟩
  refine h.renewed ⟨he,hre,?_,?_,?_,?_,?_⟩
  · rintro m (rfl | rfl)
    · exact ⟨m,by simp,hr,within_refl s m⟩
    · exact ⟨m,by simp,hn,within_refl s m⟩
  · rintro m (rfl | rfl)
    · exact Or.inl (by simp)
    · refine Or.inr ⟨⟨r,(hrchild _).mpr (Or.inl rfl)⟩,?_⟩
      rw [hnew]
      exact hf.assembled
  · exact hold
  · intro q m hq
    refine Or.inr (Or.inr ?_)
    by_cases hqr : q = r
    · exact ⟨r,(hrchild m).mpr (Or.inr ((hchild m).mp (hqr ▸ hq)))⟩
    by_cases hqn : q = n
    · refine ⟨s.next,?_⟩
      rw [Child, hnew]
      exact hqn ▸ hq
    · exact ⟨q,hre.child_of_not_mem (by simp [hqr, hqn]) hq⟩
  · intro u hu
    rcases List.mem_pair.mp hu with rfl | rfl
    · refine ⟨isRoot_of_old hold hm hr,?_⟩
      have hmoved : t.Holds s.next (o n) := hre.holds_of_moved h.sound hF hnew (h.holds n hn)
      apply holds_of_read (l := .block) hrt
      refine forall₂_insertIdx ((forall₂_with_mem hparts).imp fun b w hb => ?_) hmoved i
      exact hre.holds_of_child h.sound hF ((hchild b).mpr hb.1) hb.2
    · exact ⟨isRoot_of_old hold hf.mem hn,holds_of_empty hnt⟩

end Mirrors
end RobotCode
