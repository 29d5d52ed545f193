import RobotCode.Proofs.Halt
import RobotCode.Proofs.Views

/-! # The two counts

Counting by taking apart and counting by looking give the same number, before and after each other.
A statement below which something is taken apart makes both of them fail, though they may come upon
different nodes first.
-/
namespace RobotCode
open Store
variable {s t : Store} {n : NodeId} {w : Tree}

namespace Tally

/-- Once a statement has been counted by taking it apart, looking finds the same calls. -/
theorem Recounted.countWalking_eq (h : Recounted s n w t) (hs : s.Sound) (ha : s.Acyclic)
    (hn : n ∈ s) (hp : w.firstPending? = none) :
    countWalking (.statement n) t = .ok w.primitives.length t :=
  Tally.countWalking_eq (h.edits.sound hs) (h.edits.acyclic ha) (h.edits.mem hn) h.holds hp

end Tally

/-- In a forest the two counts of a statement agree, whichever comes first, if nothing in it is taken
apart, and otherwise both of them fail. -/
theorem counts_agree {allowed : Store → Command → Prop} (h : Reachable allowed s) (hf : s.Forest)
    (hn : n ∈ s) :
    (s.Intact n → ∃ k t, Tally.count (.statement n) s = .ok k t ∧
      Tally.countWalking (.statement n) s = .ok k s ∧
      Tally.countWalking (.statement n) t = .ok k t) ∧
    (¬ s.Intact n → ∃ j k t,
      Tally.count (.statement n) s = .error (.violation (.disassembled j)) t ∧
      Tally.countWalking (.statement n) s = .error (.violation (.disassembled k)) s) := by
  have hs := h.sound
  have ha := hf.acyclic
  obtain ⟨w,hw⟩ := exists_holds ha n
  rw [hs.intact_iff hw]
  rcases Tally.countWalking_cases hs ha hn hw with ⟨hp,hwalk⟩ | ⟨hp,k,hwalk⟩
  · refine ⟨fun _ => ?_,fun hnot => absurd hp hnot⟩
    obtain ⟨t,ht,hre⟩ := Tally.count_of_holds hs ha hn hw hp
    exact ⟨w.primitives.length,t,ht,hwalk,hre.countWalking_eq hs ha hn hp⟩
  · refine ⟨fun hnone => absurd hnone hp,fun _ => ?_⟩
    obtain ⟨j,t,ht,_⟩ := Tally.count_of_pending hs ha hn hw hp
    exact ⟨j,k,t,ht,hwalk⟩

theorem counts_agree_wrapped :
    (∃ k t, Tally.count (.statement ⟨5⟩) wrapped = .ok k t ∧
      Tally.countWalking (.statement ⟨5⟩) wrapped = .ok k wrapped ∧
      Tally.countWalking (.statement ⟨5⟩) t = .ok k t) ∧
    ∃ j k t, Tally.count (.statement ⟨5⟩) stranded = .error (.violation (.disassembled j)) t ∧
      Tally.countWalking (.statement ⟨5⟩) stranded =
        .error (.violation (.disassembled k)) stranded := by
  have hs := reachable_wrapped.sound
  have hf : wrapped.Forest := hs.forest reachable_wrapped.acyclic
  have hwhole : wrapped.tree? ⟨5⟩ = some (.block [.guarded .ifThen .always [.block [.call "move"]]]) :=
    rfl
  have hintact : wrapped.Intact ⟨5⟩ := (hs.intact_iff (holds_of_tree? hwhole)).mpr rfl
  have hpart : stranded.tree? ⟨5⟩ =
      some (.block [.guarded .ifThen .always [.block [.pending .call]]]) := rfl
  have hstranded : ¬ stranded.Intact ⟨5⟩ := by
    rw [reachable_stranded.sound.intact_iff (holds_of_tree? hpart)]
    exact Option.some_ne_none Kind.call
  exact ⟨(counts_agree reachable_wrapped hf (by decide)).1 hintact,
    (counts_agree reachable_stranded forest_stranded (by decide)).2 hstranded⟩

end RobotCode
