import RobotCode.Proofs.Halt.Block
import RobotCode.Proofs.Halt.Guarded
import RobotCode.Proofs.Recount

/-! # What a count leaves when it fails

In a forest, a count fails only because something in the statement is taken apart. It does not put
together again what it has taken apart on the way there, and the statement loses a part of its value.
-/
namespace RobotCode
open Store
open List (Forall₂)
variable {s t : Store} {m n r : NodeId} {w : Tree} {d : ℕ} (records : List Subtotal)

namespace Tally
open TallyM Statement

theorem rebuildWithin_of_kindCalls_error {l : Label} {e : Fault} {j : Progress}
    (hl : (s.read r).label = l) (hp : l.awaited? = none)
    (h : kindCalls (rebuildWithin d) l.kind r ⟨s,records⟩ = .error e j) :
    rebuildWithin (d + 1) r ⟨s,records⟩ = .error e j := by
  subst hl
  rw [rebuildWithin_succ, bind_of_ok (edit_of_ok (kind_of_assembled hp)), bind_of_error h]

/-- A statement that has been taken apart is not touched. -/
theorem Halted.of_pending {k : Kind} (hn : (s.read n).label = .pending k)
    (hw : s.Holds n (.pending k)) : Halted s n (.pending k) s where
  kept _ _ _ := rfl
  holds := hw
  leftOpen_iff _ _ hm := iff_of_false (not_not_intro hm) (not_leftOpen_of_pending hn)

theorem halts_rebuildWithin (d : ℕ) : Halts d (rebuildWithin d) := by
  induction d with
  | zero =>
    intro s n w records _ _ _ hw
    simp [treeWithin?] at hw
  | succ d ih =>
    intro s n w records hs ha hn hw hp
    have hholds : s.Holds n w := ⟨d + 1,hw⟩
    obtain ⟨ws,hws,rfl⟩ := treeWithin?_succ_eq_some.mp hw
    have hread : s.read n = ⟨(s.read n).label,(s.read n).children⟩ := rfl
    have hparts : (s.read n).label.awaited? = none → ∃ w ∈ ws, w.firstPending? ≠ none := by
      intro hl
      by_contra hno
      refine hp ((firstPending?_tree (hs.shaped n) hws.length_eq).mpr ⟨hl,fun w hw => ?_⟩)
      by_contra h
      exact hno ⟨w,hw,h⟩
    cases hlabel : (s.read n).label with
    | block =>
      rw [hlabel] at hread hparts
      obtain ⟨k,t,ht,hhalt⟩ :=
        halts_blockCalls records (recounts_rebuildWithin d) ih hs ha hread hws (hparts rfl)
      exact ⟨k,t,rebuildWithin_of_kindCalls_error records hlabel rfl ht,hhalt⟩
    | guarded g c =>
      rw [hlabel] at hread hparts
      obtain ⟨k,t,ht,hhalt⟩ :=
        halts_guardedCalls records (recounts_rebuildWithin d) ih hs ha hread hws (hparts rfl)
      rw [← kindCalls_guarded] at ht
      exact ⟨k,t,rebuildWithin_of_kindCalls_error records hlabel rfl ht,hhalt⟩
    | call name =>
      rw [hlabel] at hp
      exact absurd rfl hp
    | pending k =>
      rw [hlabel] at hholds
      have hawaited : s.assembled n = .error (.violation (.disassembled k)) :=
        assembled_of_some (by rw [hlabel]; rfl)
      exact ⟨k,s,rebuildWithin_of_not_assembled records hawaited,.of_pending hlabel hholds⟩

/-- A count of a statement in which something is taken apart fails. These are the records made up to
then, and this is what it leaves. -/
theorem countLogged_of_pending (hs : s.Sound) (ha : s.Acyclic) (hn : n ∈ s) (hw : s.Holds n w)
    (hp : w.firstPending? ≠ none) :
    ∃ k t, countLogged (.statement n) s =
        (.error (.violation (.disassembled k)),w.subtotalsBeforeHalt,t) ∧
      Halted s n w t := by
  obtain ⟨k,t,ht,hhalt⟩ := halts_rebuildWithin (s.size + 1) [] hs ha hn hw.tree? hp
  refine ⟨k,t,?_,hhalt⟩
  rw [countLogged_of_error _ ht, List.append_nil, List.reverse_reverse]

theorem count_of_pending (hs : s.Sound) (ha : s.Acyclic) (hn : n ∈ s) (hw : s.Holds n w)
    (hp : w.firstPending? ≠ none) :
    ∃ k t, count (.statement n) s = .error (.violation (.disassembled k)) t ∧ Halted s n w t := by
  obtain ⟨k,t,ht,hhalt⟩ := countLogged_of_pending hs ha hn hw hp
  refine ⟨k,t,?_,hhalt⟩
  unfold count
  rw [ht]

end Tally

/-- In a forest a count fails only because something in the statement is taken apart. Nothing outside
its subtree is changed. The statement is left with what `Tree.halted` makes of its value, and of the
old nodes that were assembled the count leaves taken apart those, and only those, that `LeftOpen`
says. -/
theorem count_leaves_halted {allowed : Store → Command → Prop} (h : Reachable allowed s)
    (hf : s.Forest) (hn : n ∈ s) {e : Fault} (he : Tally.count (.statement n) s = .error e t) :
    (∃ k, e = .violation (.disassembled k)) ∧ ¬ s.Intact n ∧
      (∃ w, s.tree? n = some w ∧ t.tree? n = some w.halted) ∧
      (∀ m ∈ s, ¬ s.Within n m → t.read m = s.read m) ∧
      ∀ m ∈ s, (s.read m).label.awaited? = none →
        ((t.read m).label.awaited? ≠ none ↔ s.LeftOpen n m) := by
  have hs := h.sound
  have ha := hf.acyclic
  obtain ⟨w,hw⟩ := exists_holds ha n
  have hp : w.firstPending? ≠ none := by
    intro hp
    obtain ⟨t',ht',_⟩ := Tally.count_of_holds hs ha hn hw hp
    rw [ht'] at he
    cases he
  obtain ⟨k,t',ht',hhalt⟩ := Tally.count_of_pending hs ha hn hw hp
  have hleads : Leads True id (Tally.count (.statement n)) s fun _ _ => True :=
    Tally.leads_count hs (fun _ => ha.loopless) (Argument.known_statement hn)
  have hat : t.Acyclic := (hleads.edits_of_error he).acyclic ha
  rw [ht'] at he
  cases he
  exact ⟨⟨k,rfl⟩,(hs.intact_iff hw).not.mpr hp,⟨w,hw.tree?,hhalt.holds.tree?⟩,hhalt.kept,
    hhalt.leftOpen_iff⟩

/-- A block around a choice whose body holds a call. -/
def wrapped : Store :=
  ⟨#[{},{},.call "move",{},.block [⟨2⟩],.block [⟨6⟩],.guarded .ifThen .always [⟨4⟩]]⟩

/-- The same with the call taken apart. -/
def stranded : Store :=
  ⟨#[{},{},.apart .call,{},.block [⟨2⟩],.block [⟨6⟩],.guarded .ifThen .always [⟨4⟩]]⟩

theorem reachable_wrapped : Reachable (fun s c => c.Tame s) wrapped :=
  .step (c := .build (.block [.ifThen (.condition .always) (.block [.call (.text "move")])]))
    .start (by decide) trivial rfl

theorem reachable_stranded : Reachable (fun s c => c.Tame s) stranded :=
  .step (c := .disassembleCall ⟨2⟩) reachable_wrapped (by decide) trivial rfl

theorem forest_wrapped : wrapped.Forest :=
  reachable_wrapped.sound.forest reachable_wrapped.acyclic

/-- Nothing is taken apart in the block, nor in the choice. -/
theorem intact_wrapped : wrapped.Intact ⟨5⟩ ∧ wrapped.Intact ⟨6⟩ := by
  have hs := reachable_wrapped.sound
  have hchoice : wrapped.tree? ⟨6⟩ =
    some (.guarded .ifThen .always [.block [.call "move"]]) := rfl
  have hblock : wrapped.tree? ⟨5⟩ =
    some (.block [.guarded .ifThen .always [.block [.call "move"]]]) := rfl
  exact ⟨(hs.intact_iff (holds_of_tree? hblock)).mpr rfl,
    (hs.intact_iff (holds_of_tree? hchoice)).mpr rfl⟩

theorem forest_stranded : stranded.Forest :=
  reachable_stranded.sound.forest reachable_stranded.acyclic

/-- The block holds the call, which is taken apart. -/
theorem not_intact_stranded : ¬ stranded.Intact ⟨5⟩ := by
  have hblock : stranded.tree? ⟨5⟩ =
      some (.block [.guarded .ifThen .always [.block [.pending .call]]]) := rfl
  rw [reachable_stranded.sound.intact_iff (holds_of_tree? hblock)]
  exact Option.some_ne_none Kind.call

theorem count_leaves_halted_stranded : ∃ e t, Tally.count (.statement ⟨5⟩) stranded = .error e t ∧
    (∃ k, e = .violation (.disassembled k)) ∧ ¬ stranded.Intact ⟨5⟩ ∧
    (∃ w, stranded.tree? ⟨5⟩ = some w ∧ t.tree? ⟨5⟩ = some w.halted) ∧
    (∀ m ∈ stranded, ¬ stranded.Within ⟨5⟩ m → t.read m = stranded.read m) ∧
    ∀ m ∈ stranded, (stranded.read m).label.awaited? = none →
      ((t.read m).label.awaited? ≠ none ↔ stranded.LeftOpen ⟨5⟩ m) := by
  have hrun : ∃ e t, Tally.count (.statement ⟨5⟩) stranded = .error e t := ⟨_,_,rfl⟩
  obtain ⟨e,t,ht⟩ := hrun
  exact ⟨e,t,ht,count_leaves_halted reachable_stranded forest_stranded (by decide) ht⟩

/-- The choice is left taken apart, and the block has lost it. -/
theorem count_takes_apart_stranded : Reachable (fun s c => c.Tame s) stranded ∧ stranded.Forest ∧
    ⟨5⟩ ∈ stranded ∧ (stranded.read ⟨6⟩).label.awaited? = none ∧
    stranded.tree? ⟨5⟩ = some (.block [.guarded .ifThen .always [.block [.pending .call]]]) ∧
    ∃ e t, Tally.count (.statement ⟨5⟩) stranded = .error e t ∧
      (t.read ⟨6⟩).label.awaited? = some .ifThen ∧ t.tree? ⟨5⟩ = some (.block []) :=
  ⟨reachable_stranded,forest_stranded,by decide,rfl,rfl,_,_,rfl,rfl,rfl⟩

end RobotCode
