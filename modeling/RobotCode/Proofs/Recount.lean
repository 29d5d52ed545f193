import Mathlib.Data.Set.Card
import RobotCode.Proofs.Reachable
import RobotCode.Proofs.Recount.Block
import RobotCode.Proofs.Recount.Guarded

/-! # Counting puts together what it takes apart

Counting a statement of a forest below which nothing is taken apart never fails. It gives the number
of primitive calls, and it leaves the statement and all that lie above it with their values.
-/
namespace RobotCode
open Store
open List (Forall₂)
variable {s t : Store} {a n r : NodeId} {w : Tree} {d : ℕ} (records : List Subtotal)

namespace Tally
open TallyM Statement

theorem kind_of_assembled (h : (s.read r).label.awaited? = none) :
    kind r s = .ok (s.read r).label.kind s := by
  rw [kind_read h]
  exact field_of_none h

theorem kindCalls_guarded (count : NodeId → TallyM ℕ) (g : Guarded) :
    kindCalls count g.kind = guardedCalls count g := by
  cases g <;> rfl

/-- A record after the counts of the pieces completes the count of a node. -/
theorem rebuildWithin_of_kindCalls {k : ℕ} {l : Label} {records₁ records₂ : List Subtotal}
    (hl : (s.read r).label = l) (hp : l.awaited? = none)
    (h : kindCalls (rebuildWithin d) l.kind r ⟨s,records₁⟩ = .ok k ⟨t,records₂⟩) :
    rebuildWithin (d + 1) r ⟨s,records₁⟩ = .ok k ⟨t,⟨l.kind,k⟩ :: records₂⟩ := by
  subst hl
  rw [rebuildWithin_succ, bind_of_ok (edit_of_ok (kind_of_assembled hp)), bind_of_ok h]
  rfl

theorem recounts_rebuildWithin (d : ℕ) : Recounts d (rebuildWithin d) := by
  induction d with
  | zero =>
    intro s n w records _ _ _ hw
    simp [treeWithin?] at hw
  | succ d ih =>
    intro s n w records hs ha hn hw hp
    obtain ⟨ws,hws,rfl⟩ := treeWithin?_succ_eq_some.mp hw
    obtain ⟨hl,hps⟩ := (firstPending?_tree (hs.shaped n) hws.length_eq).mp hp
    have hread : s.read n = ⟨(s.read n).label,(s.read n).children⟩ := rfl
    cases hlabel : (s.read n).label with
    | block =>
      rw [hlabel] at hread
      obtain ⟨t,ht,hre⟩ := recounts_blockCalls records ih hs ha hread hws hps
      refine ⟨t,?_,hre⟩
      rw [rebuildWithin_of_kindCalls hlabel rfl ht, Label.tree, Tree.length_primitives_block,
        Tree.subtotals, List.reverse_append, Tree.length_primitives_block]
      rfl
    | guarded g c =>
      rw [hlabel] at hread
      obtain ⟨t,ht,hre⟩ := recounts_guardedCalls records ih hs ha hread hws hps
      rw [← kindCalls_guarded] at ht
      refine ⟨t,?_,hre⟩
      rw [rebuildWithin_of_kindCalls hlabel rfl ht, Label.tree, Tree.length_primitives_guarded,
        Tree.subtotals, List.reverse_append, Tree.length_primitives_guarded]
      rfl
    | call name =>
      rw [hlabel] at hread
      have hchildren : (s.read n).children = [] := hs.admits hread
      rw [hchildren] at hread
      obtain ⟨t,ht,hre⟩ := recounts_callCalls records hs hread
      exact ⟨t,rebuildWithin_of_kindCalls hlabel rfl ht,hre⟩
    | pending k =>
      rw [hlabel] at hl
      cases hl

theorem countLogged_of_ok {k : ℕ} (h : rebuildWithin (s.size + 1) n ⟨s,[]⟩ = .ok k ⟨t,records⟩) :
    countLogged (.statement n) s = (.ok k,records.reverse,t) := by
  have hr : rebuild n ⟨s,[]⟩ = .ok k ⟨t,records⟩ := h
  unfold countLogged
  simp only [Argument.toStatement, hr]

theorem countLogged_of_error {e : Fault}
    (h : rebuildWithin (s.size + 1) n ⟨s,[]⟩ = .error e ⟨t,records⟩) :
    countLogged (.statement n) s = (.error e,records.reverse,t) := by
  have hr : rebuild n ⟨s,[]⟩ = .error e ⟨t,records⟩ := h
  unfold countLogged
  simp only [Argument.toStatement, hr]

/-- The number of calls, and one record for each node, those of the pieces first. -/
theorem countLogged_of_holds (hs : s.Sound) (ha : s.Acyclic) (hn : n ∈ s) (hw : s.Holds n w)
    (hp : w.firstPending? = none) :
    ∃ t, countLogged (.statement n) s = (.ok w.primitives.length,w.subtotals,t) ∧
      Recounted s n w t := by
  obtain ⟨t,ht,hre⟩ := recounts_rebuildWithin (s.size + 1) [] hs ha hn hw.tree? hp
  refine ⟨t,?_,hre⟩
  rw [countLogged_of_ok _ ht, List.append_nil, List.reverse_reverse]

theorem count_of_holds (hs : s.Sound) (ha : s.Acyclic) (hn : n ∈ s) (hw : s.Holds n w)
    (hp : w.firstPending? = none) :
    ∃ t, count (.statement n) s = .ok w.primitives.length t ∧ Recounted s n w t := by
  obtain ⟨t,ht,hre⟩ := countLogged_of_holds hs ha hn hw hp
  refine ⟨t,?_,hre⟩
  unfold count
  rw [ht]

theorem rebuildWithin_of_not_assembled {e : Fault} (h : s.assembled n = .error e) :
    rebuildWithin (d + 1) n ⟨s,records⟩ = .error e ⟨s,records⟩ := by
  have hfield : kind n s = .error e s := field_of_error h
  have hkind : edit (kind n) ⟨s,records⟩ = .error e ⟨s,records⟩ := by
    rw [edit, hfield]
  rw [rebuildWithin_succ, bind_of_error hkind]

/-- A statement that has been taken apart is not counted, and stays as it is. -/
theorem count_of_not_assembled {f : Fault} (h : s.assembled n = .error f) :
    count (.statement n) s = .error f s := by
  unfold count
  rw [countLogged_of_error [] (rebuildWithin_of_not_assembled [] h)]

end Tally

namespace Store

/-- The node is a call to one of the primitive instructions. -/
def CallsPrimitive (s : Store) (m : NodeId) : Prop :=
  ∃ name, (s.read m).label = .call name ∧ Primitive.isPrimitive name

theorem length_flatMap_eq_length_filter {α β : Type} {f : α → List β} {p : α → Bool}
    (h : ∀ x, (f x).length = if p x then 1 else 0) (xs : List α) :
    (xs.flatMap f).length = (xs.filter p).length := by
  induction xs with
  | nil => rfl
  | cons x xs ih =>
    rw [List.flatMap_cons, List.length_append, ih, h, List.filter_cons]
    split
    next => rw [List.length_cons, Nat.add_comm]
    next => rw [Nat.zero_add]

/-- The primitive calls in a value are as many as the nodes of the subtree that make them. -/
theorem Sound.encard_callsPrimitive (hs : s.Sound) (ha : s.Acyclic) (h : s.Holds n w) :
    {m | s.Within n m ∧ s.CallsPrimitive m}.encard = w.primitives.length := by
  obtain ⟨d,hd⟩ := h
  let p (m : NodeId) : Bool := (s.read m).label.primitives ≠ []
  have hp : ∀ m, p m = true ↔ s.CallsPrimitive m := by
    intro m
    simp only [p, CallsPrimitive, decide_eq_true_eq]
    cases (s.read m).label with
    | call name =>
      simp only [Label.primitives, Label.call.injEq, Primitive.isPrimitive]
      cases h : Primitive.ofName? name <;> simp [h]
    | _ => simp [Label.primitives]
  have hone : ∀ m, ((s.read m).label.primitives).length = if p m then 1 else 0 := by
    intro m
    simp only [p, decide_eq_true_eq]
    cases (s.read m).label with
    | call name => cases h : Primitive.ofName? name <;> simp [Label.primitives, h]
    | _ => simp [Label.primitives]
  have hset : {m | s.Within n m ∧ s.CallsPrimitive m} =
      ((s.family d n).filter p).toFinset := by
    ext m
    simp only [Set.mem_ofPred_eq, List.coe_toFinset, List.mem_filter, mem_family hd, hp]
  have hnodup : ((s.family d n).filter p).Nodup := (hs.nodup_family ha hd).filter p
  rw [hset, Set.encard_coe_eq_coe_finsetCard, List.toFinset_card_of_nodup hnodup,
    ← hs.flatMap_family hd, length_flatMap_eq_length_filter hone]

end Store

/-- In a forest, counting a statement below which nothing is taken apart succeeds and gives the
number of nodes in the subtree that call a primitive. Afterwards the statement has its value again,
nothing below it is taken apart, all nodes that were outside the subtree are as they were, and
whatever holds the statement has its value as well. -/
theorem count_restores {allowed : Store → Command → Prop} (h : Reachable allowed s)
    (hf : s.Forest) (hn : n ∈ s) (hp : ∀ m, s.Within n m → (s.read m).label.awaited? = none) :
    ∃ k t, Tally.count (.statement n) s = .ok k t ∧
      {m | s.Within n m ∧ s.CallsPrimitive m}.encard = k ∧
      (∃ w, s.tree? n = some w ∧ t.tree? n = some w) ∧
      (∀ m, t.Within n m → (t.read m).label.awaited? = none) ∧
      (∀ m ∈ s, ¬ s.Within n m → t.read m = s.read m) ∧
      ∀ a, s.Below a n → ∃ w, s.tree? a = some w ∧ t.tree? a = some w := by
  have hs := h.sound
  have ha := hf.acyclic
  obtain ⟨w,hw⟩ := exists_holds ha n
  have hwp := (hs.firstPending?_eq_none_iff hw).mpr hp
  obtain ⟨t,ht,hre⟩ := Tally.count_of_holds hs ha hn hw hwp
  have hst := hre.edits.sound hs
  have hat := hre.edits.acyclic ha
  refine ⟨w.primitives.length,t,ht,hs.encard_callsPrimitive ha hw,?_,?_,?_,fun a hb => ?_⟩
  · exact ⟨w,hw.tree?,hre.holds.tree?⟩
  · exact (hst.firstPending?_eq_none_iff hre.holds).mp hwp
  · exact fun m hm hnot => hre.reworks.kept m hm hnot
  · obtain ⟨v,hv⟩ := exists_holds ha a
    have hnot : ¬ s.Below n a := fun hna => ha n (hna.trans hb)
    have hkeep : ∀ u, s.Holds n u → t.Holds n u := fun u hu => hw.unique hu ▸ hre.holds
    have htv := hs.holds_of_replaced (fun m hm hnot => hre.reworks.kept m hm hnot) hkeep hv
      hb.mem hnot
    exact ⟨v,hv.tree?,htv.tree?⟩

/-- A block around a choice between a primitive and a procedure. -/
def choice : Store :=
  ⟨#[{},{},{},.call "move",.call "foo",.block [⟨6⟩],
    .guarded .ifElse .always [⟨3⟩,⟨4⟩]]⟩

theorem count_restores_choice : choice.Below ⟨5⟩ ⟨6⟩ ∧
    ∃ k t, Tally.count (.statement ⟨6⟩) choice = .ok k t ∧
      {m | choice.Within ⟨6⟩ m ∧ choice.CallsPrimitive m}.encard = k ∧
      (∃ w, choice.tree? ⟨6⟩ = some w ∧ t.tree? ⟨6⟩ = some w) ∧
      (∀ m, t.Within ⟨6⟩ m → (t.read m).label.awaited? = none) ∧
      (∀ m ∈ choice, ¬ choice.Within ⟨6⟩ m → t.read m = choice.read m) ∧
      ∀ a, choice.Below a ⟨6⟩ → ∃ w, choice.tree? a = some w ∧ t.tree? a = some w := by
  have hbelow : choice.Child ⟨5⟩ ⟨6⟩ := List.mem_singleton_self _
  have h : Reachable (fun s c => c.Tame s) choice :=
    .step (c := .build (.block [.ifElse (.condition .always) (.call (.text "move"))
      (.call (.text "foo"))])) .start (by decide) trivial rfl
  have hvalue : choice.tree? ⟨6⟩ = some (.guarded .ifElse .always [.call "move",.call "foo"]) := rfl
  have hp := (h.sound.firstPending?_eq_none_iff (holds_of_tree? hvalue)).mp rfl
  exact ⟨hbelow.below,count_restores h ⟨h.sound.noSharing,h.acyclic⟩ (by decide) hp⟩

end RobotCode
