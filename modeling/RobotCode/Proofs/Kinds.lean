import RobotCode.Proofs.Misplaced

/-! # The kinds of statements taken apart

A statement that is taken apart keeps its kind, unless the moves into the outputs have emptied it on
the way. That takes a statement that is one of its own bodies, which a run comes to only by an
output below a body. This module shows that in every other run the kind of a statement taken apart
is the one that it has to be assembled as.
-/
namespace RobotCode
open Store
variable {s t : Store} {b o r : NodeId} {g : Guarded} {args : List Argument} {c : Command}

/-- The fields of `r` are the same in `t` as in `s`, and no kind has come apart from what a statement
has to be assembled as. -/
def KindsKeptBeside (r : NodeId) (s t : Store) : Prop :=
  t.cell r = s.cell r ∧ (s.KeepsKinds → t.KeepsKinds)

instance (r : NodeId) : IsTrans Store (KindsKeptBeside r) :=
  ⟨fun _ _ _ h k => ⟨k.1.trans h.1,fun hs => k.2 (h.2 hs)⟩⟩

instance : IsTrans Store fun _ t => t.KeepsKinds := ⟨fun _ _ _ _ h => h⟩

theorem KindsKeptBeside.refl (r : NodeId) (s : Store) : KindsKeptBeside r s s := ⟨rfl,id⟩

namespace Statement
open StoreM

theorem ends_move (hb : r ≠ b) (ho : r ≠ o) :
    Ends (KindsKeptBeside r) id (move b o) s fun _ _ => True := by
  unfold Ends
  cases hp : (s.read b).label.awaited? with
  | some k =>
    rw [move_of_some hp]
    exact .refl r s
  | none =>
    rw [move_of_none hp]
    refine ⟨⟨?_,KeepsKinds.transfer⟩,trivial⟩
    rw [id, cell_transfer, if_neg hb, if_neg ho]
    rfl

theorem ends_moves {ps : List (NodeId × NodeId)} (h : ∀ p ∈ ps, r ≠ p.1 ∧ r ≠ p.2) :
    Ends (KindsKeptBeside r) id (ps.forM fun p => move p.2 p.1) s fun _ _ => ∀ p ∈ ps, True :=
  ends_forM (.refl r s) (fun {_ t} _ => .refl r t) fun p hp _ _ => ends_move (h p hp).2 (h p hp).1

/-- Neither an output nor a body is the statement itself. -/
theorem ne_of_zip {test : Condition} {outs bodies : List NodeId} (hl : ¬ s.Body r r)
    (hr : s.read r = ⟨.guarded g test,bodies⟩) (he : ∀ o ∈ outs, s.read o = {}) :
    ∀ p ∈ outs.zip bodies, r ≠ p.1 ∧ r ≠ p.2 := by
  intro p hp
  obtain ⟨ho,hb⟩ := List.of_mem_zip hp
  refine ⟨fun e => ?_,fun e => hl ⟨(child_iff_of_read hr).mpr (e ▸ hb),g,test,by rw [hr]⟩⟩
  have hempty := he p.1 ho
  rw [← e, hr] at hempty
  cases hempty

/-- A statement that is none of its own bodies is taken apart as what it is. -/
theorem ends_disassemble (hl : ¬ s.Body r r) (hs : s.KeepsKinds) :
    Ends (fun _ t => t.KeepsKinds) id (disassemble g r args) s fun _ _ => True := by
  unfold Ends
  split
  next test t h =>
    obtain ⟨outs,bodies,u,_,hr,he,_,hu,rfl⟩ := of_disassemble h
    obtain ⟨⟨hcell,hkinds⟩,_⟩ := (ends_moves (ne_of_zip hl hr he)).of_ok hu
    have hread : (u.read r).label.kind = g.kind := by
      have hsame : u.read r = s.read r := congrArg Cell.node hcell
      rw [hsame, hr]
      rfl
    exact ⟨(hkinds hs).write (Or.inl hread),trivial⟩
  next e t h =>
    rcases disassemble_error h with rfl | ⟨test,bodies,outs,hr,_,he,_,hmoves⟩
    · exact hs
    · exact ((ends_moves (ne_of_zip hl hr he)).of_error hmoves).2 hs

end Statement

open Statement

theorem Ends.next? {R : Store → Store → Prop} {Q : Answer → Store → Prop}
    (h : Ends R id c.run s Q) (ht : c.next? s = some t) : R s t := by
  unfold Command.next? at ht
  split at ht
  next hr =>
    cases ht
    exact (h.of_ok hr).1
  next => cases ht
  next hr =>
    cases ht
    exact h.of_error hr

namespace Store

/-- Commands other than taking apart are tame, whatever they are handed. -/
theorem KeepsKinds.next? (hk : s.KeepsKinds) (hs : s.Sound) (hl : s.Loopless) (hc : c.Known s)
    (h : c.next? s = some t) : t.KeepsKinds := by
  have htame : c.Tame s → t.KeepsKinds := fun ht =>
    (edits_of_next? hs (fun _ => hl) hc (fun _ => ht) h).keepsKinds hk
  have hapart : ∀ {g r args}, c.run = (do return .condition (← disassemble g r args)) →
      t.KeepsKinds := by
    intro g r args hrun
    have hends : Ends (fun _ t => t.KeepsKinds) id c.run s fun _ _ => True := by
      rw [hrun]
      exact ends_bind (ends_disassemble (hl r) hk) fun _ _ hj _ => ends_pure hj trivial
    exact hends.next? h
  cases c with
  | disassembleIf r output => exact hapart rfl
  | disassembleIfElse r output₁ output₂ => exact hapart rfl
  | disassembleWhile r output => exact hapart rfl
  | _ => exact htame trivial

end Store

section Runs
variable {allowed : Store → Command → Prop}

theorem Reachable.keepsKinds (hl : ∀ t c, allowed t c → t.Loopless) (h : Reachable allowed s) :
    s.KeepsKinds := by
  induction h with
  | start =>
    intro n
    rw [cell_empty]
    exact nofun
  | step h hk ha ht ih => exact ih.next? h.sound (hl _ _ ha) hk ht

/-- In every store that commands can lead to, no node is a child twice, and every statement has the
fields that go with its kind. One that is taken apart has no test, no name and no children; its kind
is the one that it has to be assembled as, or that of a block. It is the former throughout a run in
which no command is given while a statement is one of its own bodies. -/
theorem noSharing_and_fits_of_reachable (h : Reachable allowed s) :
    s.NoSharing ∧ (∀ n, (s.cell n).Fits) ∧
      ((∀ t c, allowed t c → t.Loopless) →
        ∀ n k, (s.cell n).awaited? = some k → (s.cell n).kind = k) :=
  ⟨h.sound.noSharing,h.sound.fits,fun hl => h.keepsKinds hl⟩

end Runs

namespace Store

theorem body_iff : s.Body r b ↔ b ∈ (s.read r).children ∧ (s.read r).label.test?.isSome := by
  refine and_congr .rfl ?_
  cases (s.read r).label <;> simp [Label.test?]

instance (s : Store) (r b : NodeId) : Decidable (s.Body r b) := decidable_of_iff' _ body_iff

theorem loopless_iff : s.Loopless ↔ ∀ i < s.size, ¬ s.Body ⟨i⟩ ⟨i⟩ :=
  ⟨fun h i _ => h ⟨i⟩,fun h n hn => h n.index hn.1.mem hn⟩

instance (s : Store) : Decidable s.Loopless := decidable_of_iff' _ loopless_iff

end Store

/-- The loop comes about in the last step. -/
theorem noSharing_and_fits_of_looped : ¬ looped.Loopless ∧ looped.NoSharing ∧
    (∀ n, (looped.cell n).Fits) ∧
    ∀ n k, (looped.cell n).awaited? = some k → (looped.cell n).kind = k := by
  have h₁ : Reachable (fun t _ => t.Loopless) ⟨#[{}]⟩ :=
    .step (c := .create) .start (by decide) (by decide) rfl
  have h₂ : Reachable (fun t _ => t.Loopless) ⟨#[{},.guarded .ifThen .always [⟨2⟩],{}]⟩ :=
    .step (c := .ifThen (.condition .always) (.statement ⟨0⟩)) h₁ (by decide) (by decide) rfl
  have h₃ : Reachable (fun t _ => t.Loopless) ⟨#[{},{},{},.guarded .ifThen .always [⟨4⟩],
      .guarded .ifThen .always [⟨2⟩]]⟩ :=
    .step (c := .ifThen (.condition .always) (.statement ⟨1⟩)) h₂ (by decide) (by decide) rfl
  have h : Reachable (fun t _ => t.Loopless) looped :=
    .step (c := .disassembleIf ⟨3⟩ (.statement ⟨2⟩)) h₃ (by decide) (by decide) rfl
  obtain ⟨hsharing,hfits,hkinds⟩ := noSharing_and_fits_of_reachable h
  exact ⟨by decide,hsharing,hfits,hkinds fun _ _ ht => ht⟩

/-- The statement that is its own body, taken apart. -/
def hollowed : Store :=
  ⟨#[{},{},{ awaited? := some .ifThen },.apart .ifThen,.guarded .ifThen .always [⟨2⟩]]⟩

/-- It has to be assembled as what it was, and is of the kind of a block. -/
theorem kind_of_hollowed : Reachable (fun _ _ => True) hollowed ∧
    (hollowed.cell ⟨2⟩).awaited? = some .ifThen ∧ (hollowed.cell ⟨2⟩).kind = .block :=
  ⟨.step (c := .disassembleIf ⟨2⟩ (.statement ⟨4⟩)) reachable_looped (by decide) trivial rfl,
    rfl,rfl⟩

end RobotCode
