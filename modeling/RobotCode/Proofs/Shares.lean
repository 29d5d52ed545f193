import Mathlib.Algebra.Order.Field.Basic
import Mathlib.Data.Rat.Cast.Order
import RobotCode.Proofs.FullTables

/-! # The share of primitive calls

A statement has at least one node and no more calls than nodes, so that the density is a number
between nought and one. A node that calls nothing keeps it below one, hence only a single call of a
primitive is all share.
-/
namespace RobotCode
open Store
variable {s : Store} {n : NodeId} {w : Tree} {name : String}

namespace Tree

/-- The topmost node is counted among the nodes, and among the calls only if it is one. -/
theorem length_primitives_succ_le (t : Tree) :
    t.primitives.length + 1 ≤ t.size + t.label.primitives.length := by
  have hparts : callsIn t.parts ≤ (t.parts.map size).sum :=
    List.sum_le_sum fun p _ => p.length_primitives_le_size
  have hcalls := t.length_primitives
  have hsize := t.size_eq
  omega

theorem exists_call_of_primitives_ne_nil {t : Tree} (h : t.label.primitives ≠ []) :
    ∃ p : Primitive, t = .call p.name := by
  cases t with
  | call name =>
    cases hname : Primitive.ofName? name with
    | none => simp [label, Label.primitives, hname] at h
    | some p => exact ⟨p,by rw [Primitive.name_of_ofName? hname]⟩
  | _ => exact absurd rfl h

/-- Only where there is nothing but one call of a primitive are there as many calls as nodes. -/
theorem length_primitives_eq_size_iff (t : Tree) :
    t.primitives.length = t.size ↔ ∃ p : Primitive, t = .call p.name := by
  constructor
  · intro h
    have hle := t.length_primitives_succ_le
    exact exists_call_of_primitives_ne_nil fun hnil => by simp [hnil, h] at hle
  · rintro ⟨p,rfl⟩
    simp [primitives, calls, size, Primitive.ofName?_name]

end Tree

namespace Store

theorem Sound.holds_call_iff (hs : s.Sound) : s.Holds n (.call name) ↔ s.read n = ⟨.call name,[]⟩ := by
  refine ⟨fun h => ?_,fun h => holds_of_read (l := .call name) h .nil⟩
  obtain ⟨hl,hc⟩ := hs.of_holds h
  have hnil : (s.read n).children = [] := List.forall₂_nil_right_iff.mp hc
  calc s.read n = ⟨(s.read n).label,(s.read n).children⟩ := rfl
    _ = ⟨.call name,[]⟩ := by rw [hl, hnil]; rfl

theorem Sound.length_primitives_eq_size_iff (hs : s.Sound) (hw : s.Holds n w) :
    w.primitives.length = w.size ↔ ∃ p : Primitive, s.read n = ⟨.call p.name,[]⟩ := by
  rw [w.length_primitives_eq_size_iff]
  refine exists_congr fun p => ⟨?_,fun h => hw.unique (hs.holds_call_iff.mpr h)⟩
  rintro rfl
  exact hs.holds_call_iff.mp hw

theorem Sound.length_primitives_eq_zero_iff (hs : s.Sound) (ha : s.Acyclic) (hw : s.Holds n w) :
    w.primitives.length = 0 ↔ ∀ m, s.Within n m → ¬ s.CallsPrimitive m := by
  rw [← Nat.cast_inj (R := ℕ∞), ← hs.encard_callsPrimitive ha hw, Nat.cast_zero, Set.encard_eq_zero,
    Set.eq_empty_iff_forall_notMem]
  exact forall_congr' fun m => not_and

end Store

namespace Density
variable {d : Density}

/-- The exact quotient, before it is rounded. -/
def ratio (d : Density) : ℚ := d.calls / d.nodes

/-- There is something to divide by, and no more to be divided. -/
structure Proper (d : Density) : Prop where
  one_le : 1 ≤ d.nodes
  le : d.calls ≤ d.nodes

namespace Proper

theorem nodes_ne_zero (h : d.Proper) : (d.nodes : ℚ) ≠ 0 :=
  Nat.cast_ne_zero.mpr (Nat.one_le_iff_ne_zero.mp h.one_le)

theorem ratio_mem_unit (h : d.Proper) : 0 ≤ d.ratio ∧ d.ratio ≤ 1 :=
  ⟨div_nonneg (Nat.cast_nonneg _) (Nat.cast_nonneg _),
    div_le_one_of_le₀ (Nat.cast_le.mpr h.le) (Nat.cast_nonneg _)⟩

theorem ratio_eq_one_iff (h : d.Proper) : d.ratio = 1 ↔ d.calls = d.nodes := by
  rw [ratio, div_eq_one_iff_eq h.nodes_ne_zero, Nat.cast_inj]

theorem ratio_eq_zero_iff (h : d.Proper) : d.ratio = 0 ↔ d.calls = 0 := by
  rw [ratio, div_eq_zero_iff, or_iff_left h.nodes_ne_zero, Nat.cast_eq_zero]

end Proper

end Density

theorem Tree.density_proper (t : Tree) : (Density.mk t.primitives.length t.size).Proper where
  one_le := t.size_pos
  le := t.length_primitives_le_size

/-- The density of a statement is the quotient of its calls and its nodes. -/
theorem density_of_holds (hs : s.Sound) (ha : s.Acyclic) (hn : n ∈ s) (hw : s.Holds n w)
    (hp : w.firstPending? = none) :
    ∃ t, Density.of (.statement n) s = .ok ⟨w.primitives.length,w.size⟩ t ∧
      Statement.size n s = .ok w.size s ∧
      Tally.count (.statement n) s = .ok w.primitives.length t ∧
      Statement.size n t = .ok w.size t := by
  obtain ⟨t,ht,hre⟩ := Tally.count_of_holds hs ha hn hw hp
  have hsize : ∀ {u : Store}, u.Sound → u.Acyclic → u.Holds n w →
      Statement.size n u = .ok w.size u := by
    intro u hu hua huw
    refine StoreM.ask_of_ok ((hu.sizeOf_eq huw).trans ?_)
    rw [Tree.inFull, hp]
  have hbefore := hsize hs ha hw
  refine ⟨t,?_,hbefore,ht,hsize (hre.edits.sound hs) (hre.edits.acyclic ha) hre.holds⟩
  have hstatement : StoreM.ask (fun _ => (Argument.statement n).toStatement "num_nodes") s =
      .ok n s := rfl
  unfold Density.of
  rw [bind_of_ok hstatement, bind_of_ok hbefore, bind_of_ok ht]
  rfl

/-- In a forest, a statement in which nothing is taken apart has a density: its calls to primitives
divided by its nodes, a number from nought to one. It is one for a single call of a primitive and for
nothing else, and nought exactly if no node calls a primitive. The statement has as many nodes after
it has been counted as before. -/
theorem density_is_share {allowed : Store → Command → Prop} (h : Reachable allowed s)
    (hf : s.Forest) (hn : n ∈ s) (hi : s.Intact n) :
    ∃ (d : Density) (t : Store), (Command.density (.statement n)).run s = .ok (.density d) t ∧
      (Command.size n).run s = .ok (.number d.nodes) s ∧
      (Command.count (.statement n)).run s = .ok (.number d.calls) t ∧
      1 ≤ d.nodes ∧ 0 ≤ d.calls ∧ d.calls ≤ d.nodes ∧ 0 ≤ d.ratio ∧ d.ratio ≤ 1 ∧
      (d.ratio = 1 ↔ ∃ p : Primitive, s.read n = ⟨.call p.name,[]⟩) ∧
      (d.ratio = 0 ↔ ∀ m, s.Within n m → ¬ s.CallsPrimitive m) ∧
      (Command.size n).run t = .ok (.number d.nodes) t := by
  have hs := h.sound
  have ha := hf.acyclic
  obtain ⟨w,hw⟩ := exists_holds ha n
  obtain ⟨t,hdensity,hsize,hcount,hafter⟩ :=
    density_of_holds hs ha hn hw ((hs.intact_iff hw).mp hi)
  have hproper := w.density_proper
  obtain ⟨hnonneg,hle⟩ := hproper.ratio_mem_unit
  exact ⟨_,t,bind_of_ok hdensity,bind_of_ok hsize,bind_of_ok hcount,hproper.one_le,Nat.zero_le _,
    hproper.le,hnonneg,hle,hproper.ratio_eq_one_iff.trans (hs.length_primitives_eq_size_iff hw),
    hproper.ratio_eq_zero_iff.trans (hs.length_primitives_eq_zero_iff ha hw),bind_of_ok hafter⟩

/-- One call among the four nodes of a block, the call by itself, and an empty block. -/
theorem density_is_share_wrapped :
    (∃ d t, (Command.density (.statement ⟨5⟩)).run wrapped = .ok (.density d) t ∧ d = ⟨1,4⟩ ∧
      0 ≤ d.ratio ∧ d.ratio ≤ 1 ∧ (Command.size ⟨5⟩).run t = .ok (.number d.nodes) t) ∧
    (∃ d t, (Command.density (.statement ⟨2⟩)).run wrapped = .ok (.density d) t ∧ d.ratio = 1) ∧
    ∃ d t, (Command.density (.statement ⟨0⟩)).run wrapped = .ok (.density d) t ∧ d.ratio = 0 := by
  have h := reachable_wrapped
  have hf := forest_wrapped
  have hchoice : wrapped.Child ⟨5⟩ ⟨6⟩ := List.mem_singleton_self _
  have hbody : wrapped.Child ⟨6⟩ ⟨4⟩ := List.mem_singleton_self _
  have hcall : wrapped.Child ⟨4⟩ ⟨2⟩ := List.mem_singleton_self _
  have hwithin := (hchoice.below.trans (hbody.below.trans hcall.below)).within
  have hempty : wrapped.read ⟨0⟩ = {} := rfl
  have hnothing : wrapped.Intact ⟨0⟩ :=
    (h.sound.intact_iff (holds_of_empty hempty)).mpr rfl
  have hnone : ∀ m, wrapped.Within ⟨0⟩ m → ¬ wrapped.CallsPrimitive m := by
    rintro m hm ⟨name,hname,_⟩
    obtain rfl := (within_iff.mp hm).resolve_right (not_below_of_empty hempty)
    cases hname
  have hrun : ∃ u, (Command.density (.statement ⟨5⟩)).run wrapped = .ok (.density ⟨1,4⟩) u :=
    ⟨_,rfl⟩
  obtain ⟨d,t,hd,_,_,_,_,_,hnonneg,hle,_,_,hafter⟩ :=
    density_is_share h hf (by decide) intact_wrapped.1
  obtain ⟨d₁,t₁,hd₁,_,_,_,_,_,_,_,hone,_,_⟩ :=
    density_is_share h hf (by decide) (intact_wrapped.1.of_within hwithin)
  obtain ⟨d₀,t₀,hd₀,_,_,_,_,_,_,_,_,hzero,_⟩ := density_is_share h hf (by decide) hnothing
  obtain ⟨u,hu⟩ := hrun
  have hvalue : d = ⟨1,4⟩ := by
    rw [hu] at hd
    cases hd
    rfl
  exact ⟨⟨d,t,hd,hvalue,hnonneg,hle,hafter⟩,⟨d₁,t₁,hd₁,hone.mpr ⟨.move,rfl⟩⟩,
    d₀,t₀,hd₀,hzero.mpr hnone⟩

end RobotCode
