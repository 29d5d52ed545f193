import RobotCode.Proofs.Halt.Basic
import RobotCode.Proofs.Recount.Block

/-! # Halting within a block

The children before the one that halts the count have been counted and put back. That one has been
taken out, and it stays out.
-/
namespace RobotCode.Tally
open Store TallyM Statement
open List (Forall₂)
variable {s t u : Store} {c m r : NodeId} {cs : List NodeId} {w : Tree} {ws : List Tree} {d : ℕ}
  (records : List Subtotal)

theorem round_of_error {count : NodeId → TallyM ℕ} {i total : ℕ} {out : Store} {e : Fault}
    {j : Progress} (hout : remove r (.int i) s = .ok c out)
    (h : count c ⟨out,records⟩ = .error e j) :
    round count r total i ⟨s,records⟩ = .error e j := by
  unfold round
  rw [bind_of_ok (edit_of_ok hout), bind_of_error h]

/-- The round of the loop over a block that comes to the child which halts the count. -/
theorem halts_round {count : NodeId → TallyM ℕ} (hc : Halts d count) {pre post : List NodeId}
    {us vs : List Tree} (hs : s.Sound) (ha : s.Acyclic)
    (hr : s.read r = ⟨.block,pre ++ c :: post⟩) (hpre : Forall₂ s.Holds pre us)
    (hus : ∀ u ∈ us, u.firstPending? = none) (hw : s.treeWithin? d c = some w)
    (hp : w.firstPending? ≠ none) (hpost : Forall₂ s.Holds post vs) (total : ℕ) :
    ∃ k t, round count r total pre.length ⟨s,records⟩ =
        .error (.violation (.disassembled k)) ⟨t,w.subtotalsBeforeHalt.reverse ++ records⟩ ∧
      Halted s r (.block (us ++ w :: vs)) t := by
  have hrc : s.Child r c := (child_iff_of_read hr).mpr (by simp)
  have hnot : ¬ s.Within c r := fun h => ha r (hrc.below.within_trans h)
  have hstuck : s.Stuck r c := hs.stuck (by rw [hr]) hpre hus ⟨d,hw⟩ hp
  obtain ⟨out,hout,he,hre,hrout,hkept⟩ := remove_between hs ha hr
  have hwithin : ∀ m, out.Within c m ↔ s.Within c m := fun m => Within.congr hkept
  obtain ⟨k,t,ht,hhalt⟩ := hc records (he.sound hs) (he.acyclic ha)
    (he.mem (hs.mem_of_child hrc)) (treeWithin?_congr hw hkept) hp
  have hrest : ∀ m ∈ s, m ≠ r → ¬ s.Within c m → t.read m = s.read m := by
    intro m hm hne hcm
    rw [hhalt.kept m (he.mem hm) fun h => hcm ((hwithin m).mp h), hre.read_of_ne hne]
  have hrt : t.read r = ⟨.block,pre ++ post⟩ := by
    rw [hhalt.kept r (he.mem hrc.mem) fun h => hnot ((hwithin r).mp h), hrout]
  have hothers : ∀ x ∈ pre ++ post, ∀ m, s.Within x m → t.read m = s.read m := by
    intro x hx m hxm
    have hne : c ≠ x := by
      rintro rfl
      exact (List.nodup_cons.mp (List.nodup_middle.mp (hs.nodup_of_read hr))).1 hx
    have hrx : s.Child r x := by
      rw [child_iff_of_read hr, List.mem_append, List.mem_cons]
      exact (List.mem_append.mp hx).imp_right Or.inr
    apply hrest m (hs.mem_of_within (hs.mem_of_child hrx) hxm)
    · rintro rfl
      exact ha m (hrx.below.within_trans hxm)
    · exact fun hcm => hs.siblings_disjoint ha hrc hrx hne hcm hxm
  refine ⟨k,t,round_of_error records hout ht,fun m hm hrm => ?_,?_,fun m hm hmp => ?_⟩
  · refine hrest m hm (fun h => hrm (h ▸ within_refl s r)) fun hcm => ?_
    exact hrm (hrc.below.within.trans hcm)
  · rw [Tree.halted_block hus hp]
    refine holds_of_read (l := .block) hrt (List.rel_append ?_ ?_)
    · refine (forall₂_with_mem hpre).imp fun x _ h => h.2.congr (hothers x ?_)
      exact List.mem_append_left _ h.1
    · refine (forall₂_with_mem hpost).imp fun x _ h => h.2.congr (hothers x ?_)
      exact List.mem_append_right _ h.1
  · rw [leftOpen_block_iff (by rw [hr]) hstuck]
    by_cases hmr : m = r
    · subst hmr
      refine iff_of_false (fun h => h ?_) fun h => hnot h.within
      rw [hrt]
      rfl
    · rw [hhalt.leftOpen_iff m (he.mem hm) (by rwa [hre.read_of_ne hmr]), leftOpen_congr hkept]

/-- A count of a block halts at the first child below which something is taken apart. -/
theorem halts_blockCalls {count : NodeId → TallyM ℕ} (hc : Recounts d count) (hh : Halts d count)
    (hs : s.Sound) (ha : s.Acyclic) (hr : s.read r = ⟨.block,cs⟩)
    (hw : Forall₂ (fun c w => s.treeWithin? d c = some w) cs ws)
    (hp : ∃ w ∈ ws, w.firstPending? ≠ none) :
    ∃ k t, blockCalls count r ⟨s,records⟩ = .error (.violation (.disassembled k))
        ⟨t,(Tree.block ws).subtotalsBeforeHalt.reverse ++ records⟩ ∧
      Halted s r (.block ws) t := by
  obtain ⟨pre,c,post,us,w,vs,rfl,rfl,hpre,hcw,hpost,hus,hpw⟩ := exists_first_of_forall₂ hw hp
  have hrpre : s.read r = ⟨.block,[] ++ (pre ++ c :: post)⟩ := hr
  obtain ⟨os,u,hu,hru,hall⟩ := recounts_rounds records hc hs ha hrpre hpre hus 0
  rw [List.nil_append] at hru
  have hlen : os.length = pre.length := hall.holds.length_eq.trans hpre.length_eq.symm
  have hsame : ∀ m ∈ s.Covered (c :: post), u.read m = s.read m := fun _ =>
    hall.read_rest hs ha hr
  have hsamec : ∀ m, s.Within c m → u.read m = s.read m := fun m h =>
    hsame m ⟨c,List.mem_cons_self ..,h⟩
  have hpostu : Forall₂ u.Holds post vs := (forall₂_with_mem hpost).imp fun x _ h =>
    Holds.congr ⟨d,h.2⟩ fun m hm => hsame m ⟨x,List.mem_cons_of_mem _ h.1,hm⟩
  have hsu := hall.edits.sound hs
  have hcwu := treeWithin?_congr hcw hsamec
  have hstuck : s.Stuck r c :=
    hs.stuck (by rw [hr]) (hpre.imp fun _ _ h => ⟨d,h⟩) hus ⟨d,hcw⟩ hpw
  have hstuck' : u.Stuck r c := hsu.stuck (by rw [hru]) hall.holds hus ⟨d,hcwu⟩ hpw
  obtain ⟨k,t,ht,hhalt⟩ := halts_round ((Tree.subtotalsOf us).reverse ++ records) hh hsu
    (hall.edits.acyclic ha) hru hall.holds hus hcwu hpw hpostu (Tree.callsIn us)
  refine ⟨k,t,?_,fun m hm hrm => ?_,hhalt.holds,fun m hm hmp => ?_⟩
  · rw [List.length_nil] at hu
    rw [blockCalls_eq, bind_of_ok (edit_of_ok (length_of_block hr)), List.range_eq_range',
      List.length_append, ← List.range'_append_1, List.foldlM_append, bind_of_ok hu, Nat.zero_add,
      Nat.zero_add, List.length_cons, List.range'_succ, List.foldlM_cons, ← hlen, bind_of_error ht,
      Tree.subtotalsBeforeHalt, Tree.subtotalsBeforeHaltOf_append hus hpw, List.reverse_append,
      List.append_assoc]
  · rw [hhalt.kept m (hall.edits.mem hm) fun h => hrm (hall.within_of_within hs ha hr hru hm h)]
    apply hall.reworks.kept m hm
    rintro (rfl | ⟨x,hx,hxm⟩)
    · exact hrm (within_refl s m)
    · have hrx : s.Child r x := (child_iff_of_read hr).mpr (List.mem_append_left _ hx)
      exact hrm (hrx.below.within.trans hxm)
  · have hmu : (u.read m).label.awaited? = none := by
      by_cases hmr : m = r
      · rw [hmr, hru]
        rfl
      · refine awaited?_of_read (hall.reworks.read_or_empty hm ?_) hmp
        rintro (h | h)
        · exact hmr h
        · exact hall.not_mem m h hm
    rw [hhalt.leftOpen_iff m (hall.edits.mem hm) hmu, leftOpen_block_iff (by rw [hru]) hstuck',
      leftOpen_block_iff (by rw [hr]) hstuck, leftOpen_congr hsamec]

end RobotCode.Tally
