import RobotCode.Proofs.Halt
import RobotCode.Proofs.Places

/-! # Counting renews what lies below

A count puts a statement together out of new nodes. Whoever has kept one of the old nodes below it is
left with an empty block that belongs to nothing. The statement itself stays where it was.
-/
namespace RobotCode
open Store
variable {s t : Store} {m n p : NodeId} {w : Tree}

namespace Tally.Recounted

theorem kept (h : Recounted s n w t) (hm : m ∈ s) (hn : ¬ s.Within n m) : t.read m = s.read m :=
  h.reworks.kept m hm hn

/-- A node that lies strictly below the statement is cleared. -/
theorem cleared (h : Recounted s n w t) (ha : s.Acyclic) (hb : s.Below n m) (hm : m ∈ s) :
    t.read m = {} := by
  refine h.reworks.cleared m (Or.inl hb.within) fun hw => ?_
  rcases within_iff.mp hw with rfl | hb'
  · exact ha m hb
  · exact h.not_mem_of_below m hb' hm

/-- An old node has no parent but its old one, and loses it to the count of a statement above. -/
theorem child_of_mem (h : Recounted s n w t) (hm : m ∈ s) (hp : t.Child p m) :
    ¬ s.Within n p ∧ s.Child p m :=
  (h.reworks.child hp).resolve_left fun hw => h.not_mem_of_below m (Within.below hw hp.below) hm

theorem isRoot_of_below (h : Recounted s n w t) (hs : s.Sound) (hm : s.Below n m) : t.IsRoot m := by
  intro p hp
  obtain ⟨hnot,hpm⟩ := h.child_of_mem (hs.mem_of_below hm) hp
  obtain ⟨q,hq,hqm⟩ := below_iff_tail.mp hm
  exact hnot (hs.parent_unique hqm hpm ▸ hq)

theorem inPlace (h : Recounted s n w t) (hs : s.Sound) (ha : s.Acyclic) (hn : n ∈ s) :
    s.InPlace t n := by
  refine (h.edits.sound hs).inPlace (fun p hp => h.kept hp.mem fun hw => ?_)
    fun p hp => ⟨p,(h.child_of_mem hn hp).2⟩
  exact ha n (Within.below hw hp.below)

end Tally.Recounted

/-- Counting a statement of a forest in which nothing is taken apart leaves every node that was
strictly below it an empty block without a parent. All that is strictly below it afterwards is new,
and the statement itself is where it was. -/
theorem count_renews_below {allowed : Store → Command → Prop} (h : Reachable allowed s)
    (hf : s.Forest) (hn : n ∈ s) (hi : s.Intact n) :
    ∃ k t, Tally.count (.statement n) s = .ok k t ∧
      (∀ m, s.Below n m → t.read m = {} ∧ t.IsRoot m) ∧
      (∀ m, t.Below n m → m ∈ t ∧ m ∉ s) ∧ n ∈ t ∧ s.InPlace t n := by
  have hs := h.sound
  have ha := hf.acyclic
  obtain ⟨w,hw⟩ := exists_holds ha n
  obtain ⟨t,ht,hre⟩ := Tally.count_of_holds hs ha hn hw ((hs.intact_iff hw).mp hi)
  refine ⟨w.primitives.length,t,ht,fun m hm => ?_,fun m hm => ?_,hre.edits.mem hn,
    hre.inPlace hs ha hn⟩
  · exact ⟨hre.cleared ha hm (hs.mem_of_below hm),hre.isRoot_of_below hs hm⟩
  · exact ⟨(hre.edits.sound hs).mem_of_below hm,hre.not_mem_of_below m hm⟩

/-- A choice in a block, with a call in its body. -/
theorem count_renews_below_wrapped : wrapped.Intact ⟨6⟩ ∧ wrapped.Child ⟨5⟩ ⟨6⟩ ∧
    wrapped.Below ⟨6⟩ ⟨2⟩ ∧ ∃ k t, Tally.count (.statement ⟨6⟩) wrapped = .ok k t ∧
      (∀ m, wrapped.Below ⟨6⟩ m → t.read m = {} ∧ t.IsRoot m) ∧
      (∀ m, t.Below ⟨6⟩ m → m ∈ t ∧ m ∉ wrapped) ∧ ⟨6⟩ ∈ t ∧ wrapped.InPlace t ⟨6⟩ := by
  have hblock : wrapped.Child ⟨5⟩ ⟨6⟩ := List.mem_singleton_self _
  have hbody : wrapped.Child ⟨6⟩ ⟨4⟩ := List.mem_singleton_self _
  have hcall : wrapped.Child ⟨4⟩ ⟨2⟩ := List.mem_singleton_self _
  exact ⟨intact_wrapped.2,hblock,hbody.below.trans hcall.below,
    count_renews_below reachable_wrapped forest_wrapped (by decide) intact_wrapped.2⟩

end RobotCode
