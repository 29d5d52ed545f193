import RobotCode.Proofs.Recount.Basic

/-! # Counting a guarded statement

The bodies are moved into new blocks, counted there, and moved back. In between the new blocks are
roots, so that their subtrees have nothing in common and do not hold the statement itself.
-/
namespace RobotCode.Tally
open Store TallyM Statement
open List (Forall₂)
variable {s t u : Store} {m r : NodeId} {cs : List NodeId} {ws : List Tree} {d : ℕ}
  (records : List Subtotal) {g : Guarded}

/-- What counting several statements has done to the store. -/
structure RecountedAll (s : Store) (os : List NodeId) (ws : List Tree) (t : Store) : Prop where
  edits : Edits True s t
  reworks : s.Reworks (s.Covered os) (t.Covered os) t
  holds : Forall₂ t.Holds os ws
  not_mem_of_below : ∀ o ∈ os, ∀ m, t.Below o m → m ∉ s

theorem RecountedAll.nil (s : Store) : RecountedAll s [] [] s :=
  ⟨.refl,.of_subset fun _ _ hm => hm,.nil,by simp⟩

namespace Recounted
variable {o : NodeId} {os : List NodeId} {w : Tree}

/-- Statements that have nothing in common with the counted one are as before. -/
theorem read_covered (h : Recounted s o w u) (hs : s.Sound) (hos : ∀ x ∈ os, x ∈ s)
    (hd : ∀ m, s.Within o m → m ∉ s.Covered os) (hm : m ∈ s.Covered os) : u.read m = s.read m :=
  h.reworks.kept m (hs.mem_of_covered hos hm) fun ho => hd m ho hm

theorem not_mem_covered (h : Recounted s o w u) (hs : s.Sound) (hos : ∀ x ∈ os, x ∈ s)
    (hd : ∀ m, s.Within o m → m ∉ s.Covered os) (hm : u.Within o m) : m ∉ u.Covered os := by
  have hsame : m ∈ u.Covered os ↔ m ∈ s.Covered os :=
    mem_covered_congr fun _ => h.read_covered hs hos hd
  rw [hsame]
  intro hcov
  rcases within_iff.mp hm with rfl | hb
  · exact hd m (within_refl s m) hcov
  · exact h.not_mem_of_below m hb (hs.mem_of_covered hos hcov)

/-- The statement counted first stays as it is left while the others are counted. -/
theorem cons (h : Recounted s o w u) (hs : s.Sound) (ho : o ∈ s) (hos : ∀ x ∈ os, x ∈ s)
    (hd : ∀ m, s.Within o m → m ∉ s.Covered os) (hrest : RecountedAll u os ws t) :
    RecountedAll s (o :: os) (w :: ws) t := by
  have hapart : ∀ m, u.Within o m → m ∉ u.Covered os := fun _ => h.not_mem_covered hs hos hd
  have hkept : ∀ m, u.Within o m → t.read m = u.read m := fun m hm =>
    hrest.reworks.kept m ((h.edits.sound hs).mem_of_within (h.edits.mem ho) hm) (hapart m hm)
  have hwithin : ∀ m, t.Within o m ↔ u.Within o m := fun m => Within.congr hkept
  have hbelow : ∀ m, t.Below o m ↔ u.Below o m := fun m =>
    Below.congr_of_moved (hkept o (within_refl u o)) fun k hk => hkept k hk.within
  refine ⟨h.edits.trans hrest.edits,?_,.cons (h.holds.congr hkept) hrest.holds,?_⟩
  · refine (h.reworks.trans hrest.reworks).congr (fun m _ => ?_) fun m => ?_
    · have hsame : m ∈ u.Covered os ↔ m ∈ s.Covered os :=
        mem_covered_congr fun _ => h.read_covered hs hos hd
      simp only [Set.mem_union, Set.mem_ofPred_eq, mem_covered_cons, hsame]
    · have hap := hapart m
      simp only [Set.mem_union, Set.mem_sdiff, Set.mem_ofPred_eq, mem_covered_cons, hwithin]
      grind
  · intro x hx m hb
    rcases List.mem_cons.mp hx with rfl | hx
    · exact h.not_mem_of_below m ((hbelow m).mp hb)
    · exact fun hms => hrest.not_mem_of_below x hx m hb (h.edits.mem hms)

end Recounted

/-- Counts a list of nodes one after another. -/
def counts (count : NodeId → TallyM ℕ) (total : ℕ) (o : NodeId) : TallyM ℕ := do
  return total + (← count o)

theorem counts_of_ok {count : NodeId → TallyM ℕ} {i j : Progress} {o : NodeId} {k : ℕ}
    (h : count o i = .ok k j) (total : ℕ) : counts count total o i = .ok (total + k) j := by
  unfold counts
  rw [bind_of_ok h]
  rfl

/-- Statements that have nothing in common are counted one after another, each as if alone. -/
theorem recounts_counts {count : NodeId → TallyM ℕ} (hc : Recounts d count) {os : List NodeId}
    (hs : s.Sound) (ha : s.Acyclic) (hm : ∀ o ∈ os, o ∈ s)
    (hd : os.Pairwise fun x y => ∀ m, s.Within x m → ¬ s.Within y m)
    (hw : Forall₂ (fun o w => s.treeWithin? d o = some w) os ws)
    (hp : ∀ w ∈ ws, w.firstPending? = none) (total : ℕ) :
    ∃ t, os.foldlM (counts count) total ⟨s,records⟩ =
        .ok (total + Tree.callsIn ws) ⟨t,(Tree.subtotalsOf ws).reverse ++ records⟩ ∧
      RecountedAll s os ws t := by
  induction os generalizing s ws total records with
  | nil =>
    cases hw
    exact ⟨s,rfl,.nil s⟩
  | cons o os ih =>
    obtain _ | ⟨how,hrest⟩ := hw
    rename_i w ws
    obtain ⟨hpw,hpws⟩ := List.forall_mem_cons.mp hp
    obtain ⟨hmo,hmos⟩ := List.forall_mem_cons.mp hm
    obtain ⟨hdo,hdos⟩ := List.pairwise_cons.mp hd
    obtain ⟨u,hu,hre⟩ := hc records hs ha hmo how hpw
    have hapart : ∀ m, s.Within o m → m ∉ s.Covered os := by
      rintro m hom ⟨x,hx,hxm⟩
      exact hdo x hx m hom hxm
    have hsame : ∀ m ∈ s.Covered os, u.read m = s.read m := fun _ =>
      hre.read_covered hs hmos hapart
    have hwithin : ∀ x ∈ os, ∀ m, u.Within x m ↔ s.Within x m := fun x hx m =>
      Within.congr fun k hk => hsame k ⟨x,hx,hk⟩
    have hdu : os.Pairwise fun x y => ∀ m, u.Within x m → ¬ u.Within y m := by
      refine hdos.imp_of_mem fun hx hy h m hxm hym => ?_
      exact h m ((hwithin _ hx m).mp hxm) ((hwithin _ hy m).mp hym)
    have hwrest := forall₂_treeWithin?_congr hrest hsame
    obtain ⟨t,ht,hall⟩ := ih (w.subtotals.reverse ++ records) (hre.edits.sound hs)
      (hre.edits.acyclic ha) (fun x hx => hre.edits.mem (hmos x hx)) hdu hwrest hpws
      (total + w.primitives.length)
    refine ⟨t,?_,hre.cons hs hmo hmos hapart hall⟩
    rw [List.foldlM_cons, bind_of_ok (counts_of_ok hu total), Tree.callsIn_cons, ← Nat.add_assoc,
      Tree.subtotalsOf, List.reverse_append, List.append_assoc]
    exact ht

/-- A guarded statement that has been taken apart into new blocks. -/
structure Opened (s : Store) (r : NodeId) (k : Kind) (bodies outs : List NodeId) (t : Store) :
    Prop where
  edits : Edits True s t
  reworks : s.Reworks (insert r {m | m ∈ bodies}) (insert r {m | m ∈ outs}) t
  read : t.read r = ⟨.pending k,[]⟩
  nodup : outs.Nodup
  fresh : ∀ o ∈ outs, o ∉ s ∧ o ∈ t
  moved : Forall₂ (fun o b => t.read o = s.read b) outs bodies

theorem opened_guarded {test : Condition} (hs : s.Sound) (ha : s.Acyclic)
    (hr : s.read r = ⟨.guarded g test,cs⟩)
    (hp : ∀ b ∈ cs, (s.read b).label.awaited? = none) :
    ∃ outs u t, ((List.replicate g.arity ()).mapM fun _ => edit create) ⟨s,records⟩ =
        .ok outs ⟨u,records⟩ ∧
      disassemble g r (outs.map .statement) u = .ok test t ∧ outs.length = g.arity ∧
      Opened s r g.kind cs outs t := by
  have hm : r ∈ s := mem_of_read_ne_empty (by simp [hr])
  have hlen : cs.length = g.arity := hs.admits hr
  have hchild : ∀ b ∈ cs, s.Child r b := fun b hb => (child_iff_of_read hr).mpr hb
  obtain ⟨outs,u,hu,hl,hd,ho,hread,he⟩ := exists_creates g.arity ⟨s,records⟩
  have hru : u.read r = ⟨.guarded g test,cs⟩ := by rw [hread, hr]
  have hempty : ∀ o ∈ outs, u.read o = {} := by
    intro o h
    rw [hread, read_of_not_mem (ho o h).1]
  have hapart : ∀ o ∈ outs, o ∉ cs := fun o h hb =>
    (ho o h).1 (hs.mem_of_child (hchild o hb))
  have hpu : ∀ b ∈ cs, (u.read b).label.awaited? = none := by
    intro b hb
    rw [hread]
    exact hp b hb
  have hrb : r ∉ cs := fun h => ha r (hchild r h).below
  obtain ⟨t,ht,hdis⟩ := dismantled_disassemble ((he True).sound hs) hru (hl.trans hlen.symm) hd
    hempty (fun o h => (ho o h).2) hapart hpu hrb
    (outputsClear_of_fresh hs hread fun o h => (ho o h).1)
  refine ⟨outs,u,t,hu,ht,hl,(he True).trans hdis.edits,?_,hdis.read,hd,?_,?_⟩
  · refine ⟨((he True).trans hdis.edits).size_le,fun m hms hF => ?_,fun m hF hG => ?_⟩
    · have hmo : m ∉ outs := fun h => (ho m h).1 hms
      rw [← hread m]
      apply hdis.reworks.kept m ((he True).mem hms)
      simpa [hmo] using hF
    · by_cases hmu : m ∈ insert r {m | m ∈ cs ∨ m ∈ outs} ∨ m ∉ u
      · exact hdis.reworks.cleared m hmu hG
      · rw [not_or, not_not] at hmu
        rw [hdis.reworks.kept m hmu.2 hmu.1, hread]
        apply read_of_not_mem
        apply hF.resolve_left
        intro h
        exact hmu.1 (h.imp_right Or.inl)
  · exact fun o h => ⟨(ho o h).1,hdis.edits.mem (ho o h).2⟩
  · exact hdis.moved.imp fun o b h => by rw [h, hread]

namespace Opened
variable {k : Kind} {bodies outs : List NodeId}

theorem kept_below (h : Opened s r k bodies outs t) (hs : s.Sound) (ha : s.Acyclic)
    (hr : (s.read r).children = bodies) {b : NodeId} (hb : b ∈ bodies) (hm : s.Below b m) :
    t.read m = s.read m := by
  have hrb : s.Child r b := by rwa [Child, hr]
  obtain ⟨hne,hnot⟩ := hs.ne_and_not_child_of_below ha hrb hm
  rw [Child, hr] at hnot
  exact h.reworks.kept m (hs.mem_of_below hm) fun hF => hF.elim hne hnot

/-- An output holds what its body has held. -/
theorem treeWithin? {b o : NodeId} {w : Tree} (h : Opened s r k bodies outs t) (hs : s.Sound)
    (ha : s.Acyclic) (hr : (s.read r).children = bodies) (hb : b ∈ bodies)
    (ho : t.read o = s.read b) (hw : s.treeWithin? d b = some w) : t.treeWithin? d o = some w :=
  treeWithin?_of_moved hw ho fun _ hm => h.kept_below hs ha hr hb hm

theorem isRoot (h : Opened s r k bodies outs t) (hs : s.Sound) {o : NodeId} (ho : o ∈ outs) :
    t.IsRoot o := by
  intro p hp
  have hos := (h.fresh o ho).1
  rcases h.reworks.exists_child h.moved hp with rfl | ⟨_,_,hq⟩
  · exact absurd ((child_iff_of_read h.read).mp hp) List.not_mem_nil
  · exact hos (hs.mem_of_child hq)

theorem pairwise (h : Opened s r k bodies outs t) (hs : s.Sound) :
    outs.Pairwise fun x y => ∀ m, t.Within x m → ¬ t.Within y m :=
  h.nodup.imp_of_mem fun hx hy hne _ =>
    (h.edits.sound hs).roots_disjoint (h.isRoot hs hx) (h.isRoot hs hy) hne

/-- Below the outputs lies what lay below the bodies. -/
theorem below_outs_iff (h : Opened s r k bodies outs t) (hs : s.Sound) (ha : s.Acyclic)
    (hr : (s.read r).children = bodies) :
    (∃ o ∈ outs, t.Below o m) ↔ ∃ b ∈ bodies, s.Below b m := by
  have hmoved : Forall₂ (fun o b => ∀ m, t.Below o m ↔ s.Below b m) outs bodies := by
    refine (forall₂_with_mem h.moved.flip).flip.imp fun o b hob m => ?_
    exact Below.congr_of_moved hob.2 fun k hk => h.kept_below hs ha hr hob.1 hk
  exact exists_iff_of_forall₂ (hmoved.imp fun _ _ h => h m)

/-- Of the old nodes, the outputs hold only such as lay below the statement. -/
theorem below_of_covered (h : Opened s r k bodies outs t) (hs : s.Sound) (ha : s.Acyclic)
    (hr : (s.read r).children = bodies) (hm : m ∈ s) (hc : m ∈ t.Covered outs) : s.Below r m := by
  rw [mem_covered_iff, h.below_outs_iff hs ha hr] at hc
  rcases hc with ho | ⟨b,hb,hbm⟩
  · exact absurd hm (h.fresh m ho).1
  · have hrb : s.Child r b := by rwa [Child, hr]
    exact hrb.below.trans hbm

theorem not_mem_covered (h : Opened s r k bodies outs t) (hs : s.Sound) (ha : s.Acyclic)
    (hr : (s.read r).children = bodies) (hm : r ∈ s) : r ∉ t.Covered outs := fun hc =>
  ha r (h.below_of_covered hs ha hr hm hc)

/-- A statement that is taken apart, whose outputs are counted and which is put together from
them, has been counted. -/
theorem recounted {v : Store} {ns : List NodeId} {test : Condition}
    (h : Opened s r g.kind bodies outs t) (hs : s.Sound) (ha : s.Acyclic)
    (hr : (s.read r).children = bodies) (hm : r ∈ s) (hall : RecountedAll t outs ws u)
    (hclose : Closed u r g test outs ns v) : Recounted s r (.guarded g test ws) v := by
  have hrt := h.edits.mem hm
  have hbelow : ∀ o ∈ outs, ∀ m, u.Below o m → m ≠ r ∧ m ∉ outs := by
    intro o ho m hb
    have hmt := hall.not_mem_of_below o ho m hb
    exact ⟨fun e => hmt (e ▸ hrt),fun hmo => hmt (h.fresh m hmo).2⟩
  have hkept : ∀ o ∈ outs, ∀ m, u.Below o m → v.read m = u.read m := by
    intro o ho m hb
    obtain ⟨hne,hmo⟩ := hbelow o ho m hb
    exact hclose.kept ((hall.edits.sound (h.edits.sound hs)).mem_of_below hb) hne hmo
  have hbelow₁ : ∀ m, (∃ o ∈ outs, t.Below o m) ↔ ∃ b ∈ bodies, s.Below b m := fun m =>
    h.below_outs_iff hs ha hr
  have hbelow₃ : ∀ m, (∃ n ∈ ns, v.Below n m) ↔ ∃ o ∈ outs, u.Below o m := by
    intro m
    apply exists_iff_of_forall₂
    refine (forall₂_with_mem hclose.moved).flip.imp fun n o h => ?_
    exact Below.congr_of_moved h.2 (hkept o h.1)
  refine ⟨(h.edits.trans hall.edits).trans hclose.edits,?_,?_,?_⟩
  · refine ((h.reworks.trans hall.reworks).trans hclose.reworks).congr (fun m hms => ?_) fun m => ?_
    · have hmo : m ∉ outs := fun ho => (h.fresh m ho).1 hms
      simp only [Set.mem_union, Set.mem_insert_iff, Set.mem_ofPred_eq, within_iff_covered (n := r),
        mem_covered_iff, hbelow₁, hr]
      grind
    · have hread : (v.read r).children = ns := by rw [hclose.read]
      have hap : ∀ o ∈ outs, u.Below o m → m ≠ r ∧ m ∉ outs := fun o ho => hbelow o ho m
      simp only [Set.mem_union, Set.mem_sdiff, Set.mem_insert_iff, Set.mem_ofPred_eq,
        within_iff_covered (n := r), mem_covered_iff, hbelow₃, hread]
      grind
  · apply holds_of_read (l := .guarded g test) hclose.read
    apply forall₂_join hclose.moved hall.holds
    intro o n w ho _ hno how
    exact how.of_moved hno (hkept o ho)
  · intro m hb hms
    have hmt := h.edits.mem hms
    obtain ⟨n,hn,hw⟩ := below_iff.mp hb
    rw [child_iff_of_read hclose.read] at hn
    rcases within_iff.mp hw with rfl | hw
    · exact hclose.fresh m hn (hall.edits.mem hmt)
    · obtain ⟨o,ho,hob⟩ := (hbelow₃ m).mp ⟨n,hn,hw⟩
      exact hall.not_mem_of_below o ho m hob hmt

end Opened

theorem guardedCalls_eq (count : NodeId → TallyM ℕ) (g : Guarded) (r : NodeId) :
    guardedCalls count g r =
      ((List.replicate g.arity ()).mapM fun _ => edit create) >>= fun outs =>
      edit (disassemble g r (outs.map .statement)) >>= fun test =>
      outs.foldlM (counts count) 0 >>= fun calls =>
      edit (assemble g r (.condition test) (outs.map .statement)) >>= fun _ => pure calls := rfl

theorem recounts_guardedCalls {count : NodeId → TallyM ℕ} {test : Condition}
    (hc : Recounts d count) (hs : s.Sound) (ha : s.Acyclic)
    (hr : s.read r = ⟨.guarded g test,cs⟩)
    (hw : Forall₂ (fun c w => s.treeWithin? d c = some w) cs ws)
    (hp : ∀ w ∈ ws, w.firstPending? = none) :
    ∃ t, guardedCalls count g r ⟨s,records⟩ =
        .ok (Tree.callsIn ws) ⟨t,(Tree.subtotalsOf ws).reverse ++ records⟩ ∧
      Recounted s r (.guarded g test ws) t := by
  have hm : r ∈ s := mem_of_read_ne_empty (by simp [hr])
  have hchildren : (s.read r).children = cs := by rw [hr]
  have hassembled : ∀ b ∈ cs, (s.read b).label.awaited? = none := by
    intro b hb
    obtain ⟨w,hwm,hbw⟩ := exists_of_forall₂ hw hb
    exact (hs.firstPending?_eq_none_iff ⟨d,hbw⟩).mp (hp w hwm) b (within_refl s b)
  obtain ⟨outs,u,mid,hu,hmid,hlen,hopen⟩ := opened_guarded records hs ha hr hassembled
  have hs₁ := hopen.edits.sound hs
  have ha₁ := hopen.edits.acyclic ha
  have hrm := hopen.edits.mem hm
  have hwouts : Forall₂ (fun o w => mid.treeWithin? d o = some w) outs ws :=
    forall₂_join hopen.moved.flip hw fun _ _ _ hb _ hob hbw =>
      hopen.treeWithin? hs ha hchildren hb hob hbw
  obtain ⟨done,hdone,hall⟩ := recounts_counts records hc hs₁ ha₁
    (fun o ho => (hopen.fresh o ho).2) (hopen.pairwise hs) hwouts hp 0
  have hs₂ := hall.edits.sound hs₁
  have hrdone : done.read r = ⟨.pending g.kind,[]⟩ := by
    rw [hall.reworks.kept r hrm (hopen.not_mem_covered hs ha hchildren hm), hopen.read]
  have hfree : ∀ o ∈ outs, Free done r o := by
    intro o ho
    obtain ⟨w,hwm,how⟩ := exists_of_forall₂ hall.holds ho
    exact {
      mem := hall.edits.mem (hopen.fresh o ho).2
      ne := fun h => (hopen.fresh o ho).1 (h ▸ hm)
      assembled := (hs₂.firstPending?_eq_none_iff how).mp (hp w hwm) o (within_refl done o)
      not_below := fun h => hall.not_mem_of_below o ho r h hrm }
  have hready : done.ready g.kind r = .ok () := ready_of_pending (by rw [hrdone]; rfl)
  obtain ⟨ns,t,ht,hclose,_⟩ := closed_assemble test hs₂ (hall.edits.acyclic ha₁)
    (hall.edits.mem hrm) hready hopen.nodup hlen hfree
  refine ⟨t,?_,hopen.recounted hs ha hchildren hm hall hclose⟩
  rw [guardedCalls_eq, bind_of_ok hu, bind_of_ok (edit_of_ok hmid), bind_of_ok hdone,
    bind_of_ok (edit_of_ok ht), Nat.zero_add]
  rfl

end RobotCode.Tally
