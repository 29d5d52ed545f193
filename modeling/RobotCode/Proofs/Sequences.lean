import RobotCode.Proofs.Occurrences
import RobotCode.Proofs.Sequences.Count

/-! # Evaluating a block of calls

Names become a block of calls that spells them, and everything that can be asked about the block is
answered by the list of names: its size, both counts, the vector and the profile.
-/
namespace RobotCode
open Store StoreM
open List (Forall₂)
variable {s : Store} {r : NodeId} {names : List String} {p q : Primitive} {d : ℕ}

namespace Primitive

end Primitive

namespace Tree

/-- The value of a block of calls of the names. -/
def ofNames (names : List String) : Tree := .block (names.map .call)

theorem size_ofNames (names : List String) : (ofNames names).size = names.length + 1 := by
  have hone : size ∘ call = fun _ => 1 := rfl
  rw [size_eq, ofNames, parts, List.map_map, hone, List.map_const', List.sum_replicate_nat,
    Nat.mul_one, Nat.add_comm]

theorem primitives_ofNames (names : List String) :
    (ofNames names).primitives = names.filterMap Primitive.ofName? := by
  have hcalls : callsOf (names.map call) = names := by
    rw [callsOf_eq_flatMap, List.flatMap_map]
    exact List.flatMap_singleton' names
  exact congrArg (List.filterMap Primitive.ofName?) hcalls

theorem firstPending?_ofNames (names : List String) : (ofNames names).firstPending? = none := by
  refine firstPending?_eq_none_iff_parts.mpr ⟨rfl,fun p hp => ?_⟩
  obtain ⟨name,_,rfl⟩ := List.mem_map.mp hp
  rfl

end Tree

namespace Store.Spells

theorem treeWithin? (h : s.Spells r names) : s.treeWithin? (d + 2) r = some (.ofNames names) := by
  have hcalls : Forall₂ (fun c w => s.treeWithin? (d + 1) c = some w) (s.read r).children
      (names.map .call) := by
    refine List.forall₂_map_right_iff.mpr (h.calls.imp fun c name hc => ?_)
    exact treeWithin?_succ_eq_some.mpr (by rw [hc]; exact ⟨[],.nil,rfl⟩)
  exact treeWithin?_succ_eq_some.mpr ⟨_,hcalls,by rw [h.label]; rfl⟩

/-- A node is deep enough for a block of calls. -/
theorem tree? (h : s.Spells r names) (hr : r ∈ s) : s.tree? r = some (.ofNames names) := by
  obtain ⟨d,hd⟩ : ∃ d, s.size = d + 1 := Nat.exists_eq_succ_of_ne_zero (Nat.ne_zero_of_lt hr)
  rw [Store.tree?, hd]
  exact h.treeWithin?

theorem size_eq (h : s.Spells r names) (hs : s.Sound) (hr : r ∈ s) :
    Statement.size r s = .ok (names.length + 1) s := by
  refine ask_of_ok ((hs.sizeWithin_eq (h.tree? hr)).trans ?_)
  rw [Tree.inFull, Tree.firstPending?_ofNames, Tree.size_ofNames]

theorem length_le_size (h : s.Spells r names) (hs : s.Sound) : names.length ≤ s.size := by
  rw [← h.calls.length_eq]
  exact Store.length_le_size (hs.nodup r) fun c hc => hs.mem_of_child hc

/-- The walk comes to each call once, so that its steps are enough. -/
theorem countWalking_eq (h : s.Spells r names) (hs : s.Sound) (hr : r ∈ s) :
    Tally.countWalking (.statement r) s = .ok (names.countP Primitive.isPrimitive) s := by
  have hholds : Forall₂ s.Holds [r] [.ofNames names] := .cons (holds_of_tree? (h.tree? hr)) .nil
  have hsteps : (([.ofNames names] : List Tree).map Tree.size).sum ≤ s.size + 1 := by
    have := h.length_le_size hs
    simp only [List.map_cons, List.map_nil, List.sum_cons, List.sum_nil, Tree.size_ofNames]
    omega
  rcases hs.walk_cases hholds hsteps 0 with ⟨_,hwalk⟩ | ⟨⟨w,hw,hp⟩,_⟩
  · rw [Nat.zero_add, Tree.callsIn_cons, Tree.primitives_ofNames, List.length_filterMap_eq_countP]
      at hwalk
    exact ask_of_ok hwalk
  · obtain rfl := List.mem_singleton.mp hw
    exact absurd (Tree.firstPending?_ofNames names) hp

theorem profile_eq (h : s.Spells r names) (hs : s.Sound) (hr : r ∈ s) :
    Profile.of (.statement r) s =
      .ok (Profile.ofPrimitives (names.filterMap Primitive.ofName?)) s := by
  refine ask_of_ok ((hs.profileWithin_eq (h.tree? hr) []).trans ?_)
  rw [Tree.inFull, Tree.firstPending?_ofNames, Tree.primitives_ofNames]
  rfl

end Store.Spells

namespace Argument
variable {t : Store} {n : NodeId} {a : Argument}

end Argument

open Statement

end RobotCode
