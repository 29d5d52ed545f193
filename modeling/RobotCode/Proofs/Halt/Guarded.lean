import RobotCode.Proofs.Halt.Basic
import RobotCode.Proofs.Recount.Guarded

/-! # Halting within a guarded statement

If a body itself is taken apart, the statement cannot be: the bodies before that one have been moved
out, and the statement keeps them as empty blocks. Otherwise the count halts inside an output, and the
statement is not put together again.
-/
namespace RobotCode.Tally
open Store TallyM Statement
open List (Forall₂)
variable {s t u : Store} {b c m o r : NodeId} {cs : List NodeId} {w : Tree} {ws : List Tree} {d : ℕ}
  (records : List Subtotal) {g : Guarded} {test : Condition}

/-- Moves one after another stop at the first source that is taken apart. -/
theorem moves_of_pending {outs pre post : List NodeId} {k : Kind}
    (hlen : outs.length = (pre ++ b :: post).length) (ho : outs.Nodup)
    (hb : (pre ++ b :: post).Nodup) (hd : ∀ o ∈ outs, o ∉ pre ++ b :: post)
    (hp : ∀ x ∈ pre, (s.read x).label.awaited? = none) (hk : (s.read b).label.awaited? = some k)
    (hos : ∀ o ∈ outs, o ∈ s) (hbs : ∀ x ∈ pre ++ b :: post, x ∈ s) :
    ∃ t, (outs.zip (pre ++ b :: post)).forM (fun p => StoreM.move p.2 p.1) s =
        .error (.violation (.disassembled k)) t ∧
      (∀ x ∈ pre, t.read x = {}) ∧ ∀ m, m ∉ outs → m ∉ pre → t.read m = s.read m := by
  have hall : Forall₂ (fun _ _ => True) outs (pre ++ b :: post) :=
    List.forall₂_of_length_eq_of_get hlen fun _ _ _ => trivial
  obtain ⟨os₁,o,os₂,rfl,hpre,_,_⟩ := exists_of_forall₂_append_cons hall
  have hsub : ∀ x ∈ os₁, x ∈ os₁ ++ o :: os₂ := fun x hx => List.mem_append_left _ hx
  have hsub' : ∀ x ∈ pre, x ∈ pre ++ b :: post := fun x hx => List.mem_append_left _ hx
  have hbpre : b ∉ pre := fun h =>
    (List.nodup_append.mp hb).2.2 b h b (List.mem_cons_self ..) rfl
  have hbouts : b ∉ os₁ := fun h => hd b (hsub b h) (by simp)
  obtain ⟨t,ht,_,_,hempty,hrest⟩ := moves_of_disjoint hpre.length_eq (List.nodup_append.mp ho).1
    (List.nodup_append.mp hb).1 (fun x hx h => hd x (hsub x hx) (hsub' x h)) hp
    (fun x hx => hos x (hsub x hx)) fun x hx => hbs x (hsub' x hx)
  have hkt : (t.read b).label.awaited? = some k := by rw [hrest b hbouts hbpre, hk]
  refine ⟨t,?_,hempty,fun m hmo hmb => hrest m (fun h => hmo (hsub m h)) hmb⟩
  rw [List.forM_eq_forM] at ht ⊢
  rw [List.zip_append hpre.length_eq, List.forM_append, bind_of_ok ht, List.zip_cons_cons,
    List.forM_cons, bind_of_error (StoreM.move_of_some hkt)]

/-- Taking a statement apart into new blocks, as far as it gets when a body is taken apart itself: of
the old nodes, only the bodies before that one have changed. -/
theorem stalled_guarded {pre post : List NodeId} {k : Kind} (hs : s.Sound)
    (hr : s.read r = ⟨.guarded g test,pre ++ b :: post⟩)
    (hp : ∀ x ∈ pre, (s.read x).label.awaited? = none) (hk : (s.read b).label.awaited? = some k) :
    ∃ outs u t, ((List.replicate g.arity ()).mapM fun _ => edit create) ⟨s,records⟩ =
        .ok outs ⟨u,records⟩ ∧
      disassemble g r (outs.map .statement) u = .error (.violation (.disassembled k)) t ∧
      (∀ x ∈ pre, t.read x = {}) ∧ ∀ m ∈ s, m ∉ pre → t.read m = s.read m := by
  have hbodies : ∀ x ∈ pre ++ b :: post, x ∈ s := fun x hx =>
    hs.mem_of_child ((child_iff_of_read hr).mpr hx)
  obtain ⟨outs,u,hu,hl,hd,ho,hread,he⟩ := exists_creates g.arity ⟨s,records⟩
  have hru : u.read r = ⟨.guarded g test,pre ++ b :: post⟩ := by rw [hread, hr]
  have hlen : outs.length = (pre ++ b :: post).length := hl.trans (hs.admits hr).symm
  have hempty : ∀ o ∈ outs, u.read o = {} := fun o h => by
    rw [hread, read_of_not_mem (ho o h).1]
  obtain ⟨t,ht,hcleared,hrest⟩ := moves_of_pending hlen hd (hs.nodup_of_read hr)
    (fun o h hb => (ho o h).1 (hbodies o hb)) (fun x hx => by rw [hread, hp x hx])
    (by rw [hread]; exact hk) (fun o h => (ho o h).2) fun x hx => (he True).mem (hbodies x hx)
  refine ⟨outs,u,t,hu,?_,hcleared,fun m hm hmp => ?_⟩
  · rw [disassemble_eq_moves hru hd hempty, bind_of_error ht]
  · rw [hrest m (fun h => (ho m h).1 hm) hmp, hread]

/-- If a body itself is taken apart, the statement cannot be. -/
theorem halts_of_pending_body (count : NodeId → TallyM ℕ) (hs : s.Sound) (ha : s.Acyclic)
    (hr : s.read r = ⟨.guarded g test,cs⟩) (hw : Forall₂ s.Holds cs ws)
    (hp : ∃ w ∈ ws, w.label.awaited? ≠ none) :
    ∃ k t, guardedCalls count g r ⟨s,records⟩ = .error (.violation (.disassembled k))
        ⟨t,(Tree.guarded g test ws).subtotalsBeforeHalt.reverse ++ records⟩ ∧
      Halted s r (.guarded g test ws) t := by
  rw [Tree.subtotalsBeforeHalt_of_pending hp]
  obtain ⟨pre,b,post,us,w,vs,rfl,rfl,hpre,hbw,hpost,hus,hwp⟩ := exists_first_of_forall₂ hw hp
  have hm : r ∈ s := mem_of_read_ne_empty (by simp [hr])
  have hchild : ∀ {x}, x ∈ pre ++ b :: post → s.Child r x := (child_iff_of_read hr).mpr
  have hrb : s.Child r b := hchild (by simp)
  have hchildpre : ∀ x ∈ pre, s.Child r x := fun x hx => hchild (List.mem_append_left _ hx)
  have hawaited : (s.read b).label.awaited? ≠ none := by
    rw [(hs.of_holds hbw).1]
    exact hwp
  have hassembled : ∀ x ∈ pre, (s.read x).label.awaited? = none := by
    intro x hx
    obtain ⟨v,hv,hxv⟩ := exists_of_forall₂ hpre hx
    rw [(hs.of_holds hxv).1, hus v hv]
  obtain ⟨k,hk⟩ := Option.ne_none_iff_exists'.mp hawaited
  obtain ⟨outs,u,t,hu,ht,hcleared,hkept⟩ := stalled_guarded records hs hr hassembled hk
  have hbelow : ∀ x ∈ b :: post, ∀ m, s.Within x m → t.read m = s.read m := by
    intro x hx m hxm
    have hrx : s.Child r x := hchild (List.mem_append_right _ hx)
    refine hkept m (hs.mem_of_within (hs.mem_of_child hrx) hxm) fun hmp => ?_
    rcases within_iff.mp hxm with rfl | hxm
    · exact (List.nodup_append.mp (hs.nodup_of_read hr)).2.2 m hmp m hx rfl
    · exact hs.not_child_of_below ha hrx hxm (hchildpre m hmp)
  have hrt : t.read r = ⟨.guarded g test,pre ++ b :: post⟩ := by
    rw [hkept r hm fun h => ha r (hchildpre r h).below, hr]
  refine ⟨k,t,?_,fun m hm hrm => ?_,?_,fun m hm hmp => ?_⟩
  · rw [guardedCalls_eq, bind_of_ok hu, bind_of_error (edit_of_error ht)]
    rfl
  · exact hkept m hm fun h => hrm (hchildpre m h).below.within
  · rw [Tree.halted_of_pending hus hwp]
    refine holds_of_read (l := .guarded g test) hrt (List.rel_append ?_ (.cons ?_ ?_))
    · rw [List.forall₂_map_right_iff]
      exact (forall₂_with_mem hpre).imp fun x _ h => holds_of_empty (hcleared x h.1)
    · exact hbw.congr (hbelow b (List.mem_cons_self ..))
    · exact (forall₂_with_mem hpost).imp fun x _ h =>
        h.2.congr (hbelow x (List.mem_cons_of_mem _ h.1))
  · refine iff_of_false (not_not_intro ?_) (not_leftOpen_of_body (by rw [hr]) hrb hawaited)
    by_cases h : m ∈ pre
    · exact awaited?_of_read (Or.inr (hcleared m h)) hmp
    · exact awaited?_of_read (Or.inl (hkept m hm h)) hmp

theorem counts_of_error {count : NodeId → TallyM ℕ} {i j : Progress} {e : Fault}
    (h : count o i = .error e j) (total : ℕ) : counts count total o i = .error e j := by
  unfold counts
  rw [bind_of_error h]

/-- Of statements that have nothing in common, the first one in which something is taken apart
halts their counts. -/
theorem halts_counts {count : NodeId → TallyM ℕ} (hc : Recounts d count) (hh : Halts d count)
    {os os' : List NodeId} {us : List Tree} (hs : s.Sound) (ha : s.Acyclic)
    (hm : ∀ x ∈ os ++ o :: os', x ∈ s)
    (hd : (os ++ o :: os').Pairwise fun x y => ∀ m, s.Within x m → ¬ s.Within y m)
    (hw : Forall₂ (fun x u => s.treeWithin? d x = some u) os us)
    (hus : ∀ u ∈ us, u.firstPending? = none) (how : s.treeWithin? d o = some w)
    (hp : w.firstPending? ≠ none) (total : ℕ) :
    ∃ k t, (os ++ o :: os').foldlM (counts count) total ⟨s,records⟩ =
        .error (.violation (.disassembled k))
          ⟨t,w.subtotalsBeforeHalt.reverse ++ ((Tree.subtotalsOf us).reverse ++ records)⟩ ∧
      (∀ m ∈ s, m ∉ s.Covered (os ++ o :: os') → t.read m = s.read m) ∧
      ∀ m ∈ s, (s.read m).label.awaited? = none →
        ((t.read m).label.awaited? ≠ none ↔ s.LeftOpen o m) := by
  have hapart := List.pairwise_append.mp hd
  have hmos : ∀ x ∈ os, x ∈ s := fun x hx => hm x (List.mem_append_left _ hx)
  have hmo : o ∈ s := hm o (by simp)
  obtain ⟨u,hu,hall⟩ := recounts_counts records hc hs ha hmos hapart.1 hw hus total
  have hsu := hall.edits.sound hs
  have hsame : ∀ m, s.Within o m → u.read m = s.read m := by
    intro m hom
    refine hall.reworks.kept m (hs.mem_of_within hmo hom) ?_
    rintro ⟨x,hx,hxm⟩
    exact hapart.2.2 x hx o (List.mem_cons_self ..) m hxm hom
  obtain ⟨k,t,ht,hhalt⟩ := hh ((Tree.subtotalsOf us).reverse ++ records) hsu
    (hall.edits.acyclic ha) (hall.edits.mem hmo) (treeWithin?_congr how hsame) hp
  refine ⟨k,t,?_,fun m hms hcov => ?_,fun m hms hmp => ?_⟩
  · rw [List.foldlM_append, bind_of_ok hu, List.foldlM_cons, bind_of_error]
    exact counts_of_error ht _
  · have hout : ¬ u.Within o m := fun h =>
      hcov ⟨o,by simp,(Within.congr hsame).mp h⟩
    rw [hhalt.kept m (hall.edits.mem hms) hout]
    apply hall.reworks.kept m hms
    rintro ⟨x,hx,hxm⟩
    exact hcov ⟨x,List.mem_append_left _ hx,hxm⟩
  · have hmu : (u.read m).label.awaited? = none := by
      by_cases hcov : m ∈ u.Covered os
      · obtain ⟨x,hx,hxm⟩ := hcov
        obtain ⟨v,hv,hxv⟩ := exists_of_forall₂ hall.holds hx
        exact (hsu.intact_iff hxv).mpr (hus v hv) m hxm
      · exact awaited?_of_read (hall.reworks.read_or_empty hms hcov) hmp
    rw [hhalt.leftOpen_iff m (hall.edits.mem hms) hmu, leftOpen_congr hsame]

/-- If all bodies are assembled, the statement is taken apart and stays so. -/
theorem halts_of_assembled_bodies {count : NodeId → TallyM ℕ} (hc : Recounts d count)
    (hh : Halts d count) (hs : s.Sound) (ha : s.Acyclic) (hr : s.read r = ⟨.guarded g test,cs⟩)
    (hw : Forall₂ (fun c w => s.treeWithin? d c = some w) cs ws)
    (hp : ∃ w ∈ ws, w.firstPending? ≠ none) (hl : ∀ w ∈ ws, w.label.awaited? = none) :
    ∃ k t, guardedCalls count g r ⟨s,records⟩ = .error (.violation (.disassembled k))
        ⟨t,(Tree.guarded g test ws).subtotalsBeforeHalt.reverse ++ records⟩ ∧
      Halted s r (.guarded g test ws) t := by
  obtain ⟨bs,b,bs',us,w,vs,rfl,rfl,hbs,hbw,_,hus,hwp⟩ := exists_first_of_forall₂ hw hp
  have hm : r ∈ s := mem_of_read_ne_empty (by simp [hr])
  have hchildren : (s.read r).children = bs ++ b :: bs' := by rw [hr]
  have hchild : ∀ {x}, x ∈ bs ++ b :: bs' → s.Child r x := (child_iff_of_read hr).mpr
  have hassembled : ∀ x ∈ bs ++ b :: bs', (s.read x).label.awaited? = none := by
    intro x hx
    obtain ⟨v,hv,hxv⟩ := exists_of_forall₂ hw hx
    rw [(hs.of_holds ⟨d,hxv⟩).1, hl v hv]
  have hstuck : s.Stuck r b :=
    hs.stuck hchildren (hbs.imp fun _ _ h => ⟨d,h⟩) hus ⟨d,hbw⟩ hwp
  obtain ⟨outs,u,mid,hu,hmid,_,hopen⟩ := opened_guarded records hs ha hr hassembled
  obtain ⟨os,o,os',rfl,hmoved,hob,_⟩ := exists_of_forall₂_append_cons hopen.moved
  have hwos : Forall₂ (fun o w => mid.treeWithin? d o = some w) os us :=
    forall₂_join hmoved.flip hbs fun _ _ _ hb _ hob hbw =>
      hopen.treeWithin? hs ha hchildren (List.mem_append_left _ hb) hob hbw
  obtain ⟨k,t,ht,hkept,hopened⟩ := halts_counts records hc hh (hopen.edits.sound hs)
    (hopen.edits.acyclic ha) (fun x hx => (hopen.fresh x hx).2) (hopen.pairwise hs) hwos hus
    (hopen.treeWithin? hs ha hchildren (by simp) hob hbw) hwp 0
  have hrest : ∀ m ∈ s, ¬ s.Below r m → t.read m = mid.read m := fun m hm hrm =>
    hkept m (hopen.edits.mem hm) fun h => hrm (hopen.below_of_covered hs ha hchildren hm h)
  have hrt : t.read r = ⟨.pending g.kind,[]⟩ := by rw [hrest r hm (ha r), hopen.read]
  have hkeptb : ∀ m, s.Below b m → mid.read m = s.read m := fun m =>
    hopen.kept_below hs ha hchildren (by simp)
  have hout : ∀ m ∈ s, m ∉ os ++ o :: os' := fun m hm h => (hopen.fresh m h).1 hm
  refine ⟨k,t,?_,fun m hms hrm => ?_,?_,fun m hms hmp => ?_⟩
  · rw [guardedCalls_eq, bind_of_ok hu, bind_of_ok (edit_of_ok hmid), bind_of_error ht,
      Tree.subtotalsBeforeHalt_of_assembled hl, Tree.subtotalsBeforeHaltOf_append hus hwp,
      List.reverse_append, List.append_assoc]
  · rw [hrest m hms fun h => hrm h.within]
    apply hopen.reworks.kept m hms
    rintro (rfl | h)
    · exact hrm (within_refl s m)
    · exact hrm (hchild h).below.within
  · rw [Tree.halted_of_assembled hl]
    exact holds_of_read (l := .pending g.kind) hrt .nil
  · rw [leftOpen_guarded_iff (by rw [hr]) (fun x hx => hassembled x ((child_iff_of_read hr).mp hx))
      hstuck]
    by_cases hmr : m = r
    · refine iff_of_true ?_ (Or.inl hmr)
      rw [hmr, hrt]
      exact Option.some_ne_none _
    · have hread := hopen.reworks.read_or_empty hms fun h => h.elim hmr (hout m hms)
      rw [or_iff_right hmr, hopened m (hopen.edits.mem hms) (awaited?_of_read hread hmp)]
      have hmo : m ≠ o := fun h => hout m hms (by simp [h])
      by_cases hmb : m = b
      · subst hmb
        refine iff_of_false (fun h => ?_) fun h => h.2 rfl
        have hbelow := (within_iff.mp h.within).resolve_left hmo
        exact ha m ((Below.congr_of_moved hob hkeptb).mp hbelow)
      · rw [and_iff_left hmb, leftOpen_iff_of_moved hmo hmb hob hkeptb]

theorem halts_guardedCalls {count : NodeId → TallyM ℕ} (hc : Recounts d count)
    (hh : Halts d count) (hs : s.Sound) (ha : s.Acyclic) (hr : s.read r = ⟨.guarded g test,cs⟩)
    (hw : Forall₂ (fun c w => s.treeWithin? d c = some w) cs ws)
    (hp : ∃ w ∈ ws, w.firstPending? ≠ none) :
    ∃ k t, guardedCalls count g r ⟨s,records⟩ = .error (.violation (.disassembled k))
        ⟨t,(Tree.guarded g test ws).subtotalsBeforeHalt.reverse ++ records⟩ ∧
      Halted s r (.guarded g test ws) t := by
  by_cases hl : ∃ w ∈ ws, w.label.awaited? ≠ none
  · exact halts_of_pending_body records count hs ha hr (hw.imp fun _ _ h => ⟨d,h⟩) hl
  · have hall : ∀ w ∈ ws, w.label.awaited? = none := by
      intro w hw
      by_contra h
      exact hl ⟨w,hw,h⟩
    exact halts_of_assembled_bodies records hc hh hs ha hr hw hp hall

end RobotCode.Tally
