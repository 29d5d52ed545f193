import RobotCode.Proofs.Halt
import RobotCode.Proofs.Orders
import RobotCode.Proofs.Views

/-! # The records of a count

A count makes a record of each node when it has counted all that lies below. So the records come in
postorder, and each says how many calls its node holds. A count that fails has got through a part of
the nodes in whose subtrees nothing is taken apart, without leaving any of them out on the way.
-/
namespace RobotCode
open Store
open List (Forall₂)
variable {s : Store} {n : NodeId} {w : Tree} {ws : List Tree} {cs : List NodeId} {d : ℕ}

namespace Tree

theorem subtotalsOf_eq_flatMap (ts : List Tree) : subtotalsOf ts = ts.flatMap subtotals := by
  induction ts with
  | nil => rfl
  | cons t ts ih => rw [subtotalsOf, ih, List.flatMap_cons]

theorem subtotals_eq (h : w.label.awaited? = none) :
    w.subtotals = subtotalsOf w.parts ++ [⟨w.label.kind,w.primitives.length⟩] := by
  cases w with
  | pending k => cases h
  | _ => rfl

/-- A count halts before it comes to the parts, or while it goes through them. -/
theorem subtotalsBeforeHalt_cases (w : Tree) :
    w.subtotalsBeforeHalt = [] ∨ w.subtotalsBeforeHalt = subtotalsBeforeHaltOf w.parts := by
  cases w with
  | guarded g c ts =>
    rw [subtotalsBeforeHalt]
    split
    · exact Or.inr rfl
    · exact Or.inl rfl
  | block ts => exact Or.inr rfl
  | _ => exact Or.inl rfl

end Tree

namespace Store

/-- The record says the kind of the node and how many calls to primitives its subtree holds. -/
structure Records (s : Store) (m : NodeId) (r : Subtotal) : Prop where
  kind : r.kind = (s.read m).label.kind
  calls : {x | s.Within m x ∧ s.CallsPrimitive x}.encard = r.calls

theorem Sound.records (hs : s.Sound) (ha : s.Acyclic) (hw : s.Holds n w) :
    s.Records n ⟨w.label.kind,w.primitives.length⟩ :=
  ⟨by rw [(hs.of_holds hw).1],hs.encard_callsPrimitive ha hw⟩

/-- If nothing is taken apart, there is one record for each node. -/
theorem Sound.forall₂_postWithin (hs : s.Sound) (ha : s.Acyclic)
    (hw : s.treeWithin? d n = some w) (hp : w.firstPending? = none) :
    Forall₂ s.Records (s.postWithin d n) w.subtotals := by
  induction d generalizing n w with
  | zero => simp [treeWithin?] at hw
  | succ d ih =>
    obtain ⟨hl,hts⟩ := hs.of_treeWithin? hw
    obtain ⟨hawaited,hparts⟩ := Tree.firstPending?_eq_none_iff_parts.mp hp
    rw [postWithin, Tree.subtotals_eq hawaited, Tree.subtotalsOf_eq_flatMap]
    refine List.rel_append ?_ (.cons (hs.records ha ⟨d + 1,hw⟩) .nil)
    have hall : Forall₂ (fun c u => s.treeWithin? d c = some u ∧ u.firstPending? = none)
        (s.read n).children w.parts :=
      (forall₂_with_mem hts.flip).flip.imp fun c u h => ⟨h.2,hparts u h.1⟩
    exact List.rel_flatMap hall fun c u hc => ih hc.1 hc.2

open Classical in
/-- The records of the children up to the point where a count of them halts. -/
theorem Sound.exists_prefix_of_children (hs : s.Sound) (ha : s.Acyclic)
    (hts : Forall₂ (fun c u => s.treeWithin? d c = some u) cs ws)
    (ih : ∀ c u, s.treeWithin? d c = some u → ∃ ns, ns <+: (s.postWithin d c).filter s.Intact ∧
      Forall₂ s.Records ns u.subtotalsBeforeHalt) :
    ∃ ns, ns <+: (cs.flatMap (s.postWithin d)).filter s.Intact ∧
      Forall₂ s.Records ns (Tree.subtotalsBeforeHaltOf ws) := by
  induction hts with
  | nil => exact ⟨[],List.prefix_rfl,.nil⟩
  | @cons c u cs ws hu _ hrest =>
    rw [List.flatMap_cons, List.filter_append, Tree.subtotalsBeforeHaltOf]
    by_cases hp : u.firstPending? = none
    · obtain ⟨ns,hns,hall⟩ := hrest
      have hintact := (hs.intact_iff ⟨d,hu⟩).mpr hp
      have hkeep : (s.postWithin d c).filter s.Intact = s.postWithin d c := by
        refine List.filter_eq_self.mpr fun m hm => decide_eq_true ?_
        exact hintact.of_within ((mem_postWithin hu).mp hm)
      rw [if_neg (by simp [hp]), hkeep]
      exact ⟨s.postWithin d c ++ ns,(List.prefix_append_right_inj _).mpr hns,
        List.rel_append (hs.forall₂_postWithin ha hu hp) hall⟩
    · obtain ⟨ns,hns,hall⟩ := ih c u hu
      rw [if_pos (Option.isSome_iff_ne_none.mpr hp)]
      exact ⟨ns,hns.trans (List.prefix_append ..),hall⟩

open Classical in
theorem Sound.exists_prefix_postWithin (hs : s.Sound) (ha : s.Acyclic)
    (hw : s.treeWithin? d n = some w) :
    ∃ ns, ns <+: (s.postWithin d n).filter s.Intact ∧
      Forall₂ s.Records ns w.subtotalsBeforeHalt := by
  induction d generalizing n w with
  | zero => simp [treeWithin?] at hw
  | succ d ih =>
    rcases w.subtotalsBeforeHalt_cases with h | h
    · rw [h]
      exact ⟨[],List.nil_prefix,.nil⟩
    · obtain ⟨ns,hns,hall⟩ :=
        hs.exists_prefix_of_children ha (hs.of_treeWithin? hw).2 fun c u hc => ih hc
      rw [h, postWithin, List.filter_append]
      exact ⟨ns,hns.trans (List.prefix_append ..),hall⟩

end Store

open Classical in
/-- In a forest, the records of a count of a statement in which nothing is taken apart are those of
all its nodes in postorder, the last one with the result. A count that fails has made the records of
the first ones, in postorder, of the nodes in whose subtrees nothing is taken apart. -/
theorem records_in_postorder {allowed : Store → Command → Prop} (h : Reachable allowed s)
    (hf : s.Forest) (hn : n ∈ s) :
    (s.Intact n → ∃ k records t, Tally.countLogged (.statement n) s = (.ok k,records,t) ∧
      (∀ m, m ∈ s.postorder n ↔ s.Within n m) ∧ (s.postorder n).Nodup ∧
      Forall₂ s.Records (s.postorder n) records ∧ s.sizeOf n = .ok records.length ∧
      records.getLast? = some ⟨(s.read n).label.kind,k⟩) ∧
    ∀ e records t, Tally.countLogged (.statement n) s = (.error e,records,t) →
      ∃ ns, ns <+: (s.postorder n).filter s.Intact ∧ Forall₂ s.Records ns records := by
  have hs := h.sound
  have ha := hf.acyclic
  obtain ⟨w,hw⟩ := exists_tree? ha n
  have hholds := holds_of_tree? hw
  have hintact := hs.intact_iff hholds
  refine ⟨fun hi => ?_,fun e records t he => ?_⟩
  · have hp := hintact.mp hi
    obtain ⟨t,ht,_⟩ := Tally.countLogged_of_holds hs ha hn hholds hp
    have hall := hs.forall₂_postWithin ha hw hp
    have hlabel := (hs.of_holds hholds).1
    refine ⟨_,_,t,ht,fun m => mem_postorder hw,hs.nodup_postorder ha hw,hall,?_,?_⟩
    · rw [hs.sizeOf_eq hholds, Tree.inFull, hp, ← hall.length_eq,
        (s.postWithin_perm _ n).length_eq, hs.length_family hw]
    · rw [Tree.subtotals_eq (Tree.firstPending?_eq_none_iff_parts.mp hp).1, List.getLast?_append,
        hlabel]
      rfl
  · by_cases hp : w.firstPending? = none
    · obtain ⟨u,hu,_⟩ := Tally.countLogged_of_holds hs ha hn hholds hp
      rw [hu] at he
      cases he
    · obtain ⟨k,u,hu,_⟩ := Tally.countLogged_of_pending hs ha hn hholds hp
      rw [hu] at he
      cases he
      exact hs.exists_prefix_postWithin ha hw

/-- A block of a call and of a loop whose body, a call too, is taken apart. -/
def unfinished : Store :=
  ⟨#[{},{},{},.apart .call,.block [⟨5⟩,⟨6⟩],.call "move",
    .guarded .whileDo .always [⟨3⟩]]⟩

theorem reachable_unfinished : Reachable (fun s c => c.Tame s) unfinished := by
  have h : Reachable (fun s c => c.Tame s) ⟨#[{},{},{},.call "skip",.block [⟨5⟩,⟨6⟩],
      .call "move",.guarded .whileDo .always [⟨3⟩]]⟩ :=
    .step (c := .build (.block [.call (.text "move"),
      .whileDo (.condition .always) (.call (.text "skip"))])) .start (by decide) trivial rfl
  exact .step (c := .disassembleCall ⟨3⟩) h (by decide) trivial rfl

open Classical in
/-- The call before the loop has been counted when the count fails. -/
theorem records_in_postorder_unfinished :
    (∃ k records t, Tally.countLogged (.statement ⟨5⟩) wrapped = (.ok k,records,t) ∧
      (∀ m, m ∈ wrapped.postorder ⟨5⟩ ↔ wrapped.Within ⟨5⟩ m) ∧ (wrapped.postorder ⟨5⟩).Nodup ∧
      Forall₂ wrapped.Records (wrapped.postorder ⟨5⟩) records ∧
      wrapped.sizeOf ⟨5⟩ = .ok records.length ∧
      records.getLast? = some ⟨(wrapped.read ⟨5⟩).label.kind,k⟩) ∧
    ∃ e records t, Tally.countLogged (.statement ⟨4⟩) unfinished = (.error e,records,t) ∧
      records = [⟨.call,1⟩] ∧
      ∃ ns, ns <+: (unfinished.postorder ⟨4⟩).filter unfinished.Intact ∧
        Forall₂ unfinished.Records ns records := by
  have hf : unfinished.Forest :=
    reachable_unfinished.sound.forest reachable_unfinished.acyclic
  have hrun : ∃ e t, Tally.countLogged (.statement ⟨4⟩) unfinished = (.error e,[⟨.call,1⟩],t) :=
    ⟨_,_,rfl⟩
  obtain ⟨e,t,ht⟩ := hrun
  exact ⟨(records_in_postorder reachable_wrapped forest_wrapped (by decide)).1 intact_wrapped.1,
    e,_,t,ht,rfl,(records_in_postorder reachable_unfinished hf (by decide)).2 e _ t ht⟩

end RobotCode
