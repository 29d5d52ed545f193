import RobotCode.Proofs.Recount.Basic

/-! # Counting a block

The children are taken out, counted and put back one after another. After each round the block is
whole again: new nodes up to the place at hand, and the old ones from there on.
-/
namespace RobotCode.Tally
open Store TallyM Statement
open List (Forall₂)
variable {s t u : Store} {c m r : NodeId} {cs : List NodeId} {w : Tree} {ws : List Tree} {d : ℕ}
  (records : List Subtotal)

section Between
variable {α : Type} (pre post : List α) (x : α)

theorem eraseIdx_between : (pre ++ x :: post).eraseIdx pre.length = pre ++ post := by
  induction pre with
  | nil => rfl
  | cons y pre ih => simp [ih]

theorem insertIdx_between : (pre ++ post).insertIdx pre.length x = pre ++ x :: post := by
  induction pre with
  | nil => rfl
  | cons y pre ih => simp [ih]

end Between

theorem remove_of_between {pre post : List NodeId} (hr : s.read r = ⟨.block,pre ++ c :: post⟩) :
    remove r (.int pre.length) s = .ok c (s.write r ⟨.block,pre ++ post⟩) := by
  have hpos : (Argument.int pre.length).position s.text (pre ++ c :: post).length false =
      .ok (some pre.length) := Argument.position_int (Or.inl (by simp))
  have hget : (pre ++ c :: post)[pre.length]? = some c := by simp
  have ht := remove_of_block hr hpos hget
  rwa [eraseIdx_between] at ht

theorem add_of_between {pre post : List NodeId} (hr : s.read r = ⟨.block,pre ++ post⟩) (hm : r ∈ s)
    (hi : s.insertable r (.statement c) = .ok c) (hc : c ∈ s) :
    add r (.int pre.length) (.statement c) s =
      .ok () ((s.adopt c).write r ⟨.block,pre ++ s.next :: post⟩) := by
  have hle : pre.length < (pre ++ post).length ∨ true ∧ pre.length = (pre ++ post).length := by
    rw [List.length_append]
    simp only [true_and]
    omega
  have ht := add_of_block hr hm (Argument.position_int hle) hi hc
  rwa [insertIdx_between] at ht

/-- Taking a child out leaves its subtree as it is. -/
theorem remove_between {pre post : List NodeId} (hs : s.Sound) (ha : s.Acyclic)
    (hr : s.read r = ⟨.block,pre ++ c :: post⟩) :
    ∃ t, remove r (.int pre.length) s = .ok c t ∧ Edits True s t ∧ s.Reworks {r} {r} t ∧
      t.read r = ⟨.block,pre ++ post⟩ ∧ ∀ m, s.Within c m → t.read m = s.read m := by
  have hrc : s.Child r c := (child_iff_of_read hr).mpr (by simp)
  have hm := hrc.mem
  have ht := remove_of_between hr
  refine ⟨_,ht,(leads_remove hs hm).edits_of_ok ht,reworks_write hm,read_write_self ..,
    fun m h => read_write_of_ne ?_⟩
  rintro rfl
  exact ha m (hrc.below.within_trans h)

theorem add_between {pre post : List NodeId} (hs : s.Sound) (ha : s.Acyclic)
    (hr : s.read r = ⟨.block,pre ++ post⟩) (hm : r ∈ s) (hf : Free s r c) :
    ∃ o t, add r (.int pre.length) (.statement c) s = .ok () t ∧ Edits True s t ∧
      s.Reworks {r,c} {r,o} t ∧ t.read r = ⟨.block,pre ++ o :: post⟩ ∧ t.read o = s.read c ∧
      o ∉ s := by
  have ht := add_of_between hr hm (hf.insertable hs ha) hf.mem
  have he : Edits True s _ := (leads_add hs hm (Argument.known_statement hf.mem)).edits_of_ok ht
  refine ⟨s.next,_,ht,he,reworks_adopt r hf.mem,read_write_self ..,?_,s.next_not_mem⟩
  rw [read_write_of_ne (ne_next hm).symm, read_adopt_next hf.mem]

/-- One round of the loop over a block. -/
def round (count : NodeId → TallyM ℕ) (r : NodeId) (total i : ℕ) : TallyM ℕ := do
  let child ← edit (remove r (.int i))
  let calls ← count child
  edit (add r (.int i) (.statement child))
  return total + calls

theorem blockCalls_eq (count : NodeId → TallyM ℕ) (r : NodeId) : blockCalls count r =
    edit (length r) >>= fun n => (List.range n).foldlM (round count r) 0 := rfl

theorem round_of_ok {count : NodeId → TallyM ℕ} {i k total : ℕ} {out mid : Store}
    {records' : List Subtotal} (hout : remove r (.int i) s = .ok c out)
    (hmid : count c ⟨out,records⟩ = .ok k ⟨mid,records'⟩)
    (ht : add r (.int i) (.statement c) mid = .ok () t) :
    round count r total i ⟨s,records⟩ = .ok (total + k) ⟨t,records'⟩ := by
  unfold round
  rw [bind_of_ok (edit_of_ok hout), bind_of_ok hmid, bind_of_ok (edit_of_ok ht)]
  rfl

/-- A child of a block has been counted and replaced by a new node. -/
structure Exchanged (s : Store) (r c : NodeId) (w : Tree) (o : NodeId) (t : Store) : Prop where
  edits : Edits True s t
  reworks : s.Reworks (insert r {m | s.Within c m}) (insert r {m | t.Within o m}) t
  holds : t.Holds o w
  not_mem : ∀ m, t.Within o m → m ∉ s

/-- The same with several children. -/
structure ExchangedAll (s : Store) (r : NodeId) (cs : List NodeId) (ws : List Tree)
    (os : List NodeId) (t : Store) : Prop where
  edits : Edits True s t
  reworks : s.Reworks (insert r (s.Covered cs)) (insert r (t.Covered os)) t
  holds : Forall₂ t.Holds os ws
  not_mem : ∀ m ∈ t.Covered os, m ∉ s

theorem ExchangedAll.nil (s : Store) (r : NodeId) : ExchangedAll s r [] [] [] s :=
  ⟨.refl,.of_subset fun m _ hm => by simpa [Covered] using hm,.nil,by simp [Covered]⟩

namespace ExchangedAll
variable {os rest : List NodeId}

/-- The children that come after those counted are as before. -/
theorem read_rest (h : ExchangedAll s r cs ws os t) (hs : s.Sound) (ha : s.Acyclic)
    (hr : s.read r = ⟨.block,cs ++ rest⟩) (hm : m ∈ s.Covered rest) : t.read m = s.read m := by
  obtain ⟨x,hx,hxm⟩ := hm
  have hrx : s.Child r x := (child_iff_of_read hr).mpr (List.mem_append_right _ hx)
  apply h.reworks.kept m (hs.mem_of_within (hs.mem_of_child hrx) hxm)
  rintro (rfl | ⟨y,hy,hym⟩)
  · exact ha m (hrx.below.within_trans hxm)
  · have hry : s.Child r y := (child_iff_of_read hr).mpr (List.mem_append_left _ hy)
    have hne : y ≠ x := (List.nodup_append.mp (hs.nodup_of_read hr)).2.2 y hy x hx
    exact hs.siblings_disjoint ha hry hrx hne hym hxm

/-- No old node has come below the block. -/
theorem within_of_within (h : ExchangedAll s r cs ws os t) (hs : s.Sound) (ha : s.Acyclic)
    (hr : s.read r = ⟨.block,cs ++ rest⟩) (ht : t.read r = ⟨.block,os ++ rest⟩) (hm : m ∈ s)
    (hw : t.Within r m) : s.Within r m := by
  rcases within_iff_covered.mp hw with rfl | ⟨x,hx,hxm⟩
  · exact within_refl s m
  · rw [ht] at hx
    rcases List.mem_append.mp hx with hx | hx
    · exact absurd hm (h.not_mem m ⟨x,hx,hxm⟩)
    · have hrx : s.Child r x := (child_iff_of_read hr).mpr (List.mem_append_right _ hx)
      have hkeep : ∀ k, s.Within x k → t.read k = s.read k := fun k hk =>
        h.read_rest hs ha hr ⟨x,hx,hk⟩
      exact hrx.below.within.trans ((Within.congr hkeep).mp hxm)

end ExchangedAll

namespace Exchanged
variable {o : NodeId} {os : List NodeId}

/-- The other children are as before. -/
theorem read_covered (h : Exchanged s r c w o u) (hs : s.Sound) (ha : s.Acyclic)
    (hc : ∀ x ∈ c :: cs, s.Child r x) (hd : (c :: cs).Nodup) (hm : m ∈ s.Covered cs) :
    u.read m = s.read m := by
  obtain ⟨x,hx,hxm⟩ := hm
  have hrx := hc x (List.mem_cons_of_mem _ hx)
  apply h.reworks.kept m (hs.mem_of_within (hs.mem_of_child hrx) hxm)
  rintro (rfl | hcm)
  · exact ha m (hrx.below.within_trans hxm)
  · have hne : c ≠ x := by
      rintro rfl
      exact (List.nodup_cons.mp hd).1 hx
    exact hs.siblings_disjoint ha (hc c (List.mem_cons_self ..)) hrx hne hcm hxm

/-- The child counted first stays as it is left while the others are counted. -/
theorem cons (h : Exchanged s r c w o u) (hs : s.Sound) (ha : s.Acyclic)
    (hc : ∀ x ∈ c :: cs, s.Child r x) (hd : (c :: cs).Nodup) (ho : o ∈ u)
    (hrest : ExchangedAll u r cs ws os t) : ExchangedAll s r (c :: cs) (w :: ws) (o :: os) t := by
  have hsame : ∀ m, m ∈ u.Covered cs ↔ m ∈ s.Covered cs := fun m =>
    mem_covered_congr fun _ => h.read_covered hs ha hc hd
  have hcs : ∀ x ∈ cs, x ∈ s := fun x hx => hs.mem_of_child (hc x (List.mem_cons_of_mem _ hx))
  have hapart : ∀ m, u.Within o m → m ≠ r ∧ m ∉ u.Covered cs := by
    intro m hm
    refine ⟨fun e => h.not_mem m hm (e ▸ (hc c (List.mem_cons_self ..)).mem),fun hcov => ?_⟩
    exact h.not_mem m hm (hs.mem_of_covered hcs ((hsame m).mp hcov))
  have hkept : ∀ m, u.Within o m → t.read m = u.read m := by
    intro m hm
    apply hrest.reworks.kept m ((h.edits.sound hs).mem_of_within ho hm)
    rintro (e | hcov)
    · exact (hapart m hm).1 e
    · exact (hapart m hm).2 hcov
  have hwithin : ∀ m, t.Within o m ↔ u.Within o m := fun m => Within.congr hkept
  refine ⟨h.edits.trans hrest.edits,?_,.cons (h.holds.congr hkept) hrest.holds,?_⟩
  · refine (h.reworks.trans hrest.reworks).congr (fun m _ => ?_) fun m => ?_
    · simp only [Set.mem_union, Set.mem_insert_iff, Set.mem_ofPred_eq, mem_covered_cons, hsame]
      grind
    · have hap := hapart m
      simp only [Set.mem_union, Set.mem_sdiff, Set.mem_insert_iff, Set.mem_ofPred_eq,
        mem_covered_cons, hwithin]
      grind
  · intro m hm
    rcases mem_covered_cons.mp hm with hm | hm
    · exact h.not_mem m ((hwithin m).mp hm)
    · exact fun hms => hrest.not_mem m hm (h.edits.mem hms)

end Exchanged

/-- In one round of the loop over a block the child at hand is replaced by a new node of the
same value, and the block is whole again. -/
theorem recounts_round {count : NodeId → TallyM ℕ} (hc : Recounts d count) {pre post : List NodeId}
    (hs : s.Sound) (ha : s.Acyclic) (hr : s.read r = ⟨.block,pre ++ c :: post⟩)
    (hw : s.treeWithin? d c = some w) (hp : w.firstPending? = none) (total : ℕ) :
    ∃ o t, round count r total pre.length ⟨s,records⟩ =
        .ok (total + w.primitives.length) ⟨t,w.subtotals.reverse ++ records⟩ ∧
      t.read r = ⟨.block,pre ++ o :: post⟩ ∧ Exchanged s r c w o t := by
  have hrc : s.Child r c := (child_iff_of_read hr).mpr (by simp)
  have hm := hrc.mem
  have hnot : ¬ s.Within c r := fun h => ha r (hrc.below.within_trans h)
  obtain ⟨out,hout,he₁,hre₁,hr₁,hkept₁⟩ := remove_between hs ha hr
  have hwithin₁ : ∀ m, out.Within c m ↔ s.Within c m := fun m => Within.congr hkept₁
  have hs₁ := he₁.sound hs
  have ha₁ := he₁.acyclic ha
  have hcm := he₁.mem (hs.mem_of_child hrc)
  obtain ⟨mid,hmid,hre₂⟩ := hc records hs₁ ha₁ hcm (treeWithin?_congr hw hkept₁) hp
  have hr₂ : mid.read r = ⟨.block,pre ++ post⟩ := by
    rw [hre₂.reworks.kept r (he₁.mem hm) fun h => hnot ((hwithin₁ r).mp h), hr₁]
  have hs₂ := hre₂.edits.sound hs₁
  have ha₂ := hre₂.edits.acyclic ha₁
  have hrm := hre₂.edits.mem (he₁.mem hm)
  have hfree : Free mid r c := {
    mem := hre₂.edits.mem hcm
    ne := fun h => hnot (h ▸ within_refl s c)
    assembled := (hs₂.firstPending?_eq_none_iff hre₂.holds).mp hp c (within_refl mid c)
    not_below := fun h => hre₂.not_mem_of_below r h (he₁.mem hm) }
  obtain ⟨o,t,ht,he₃,hre₃,hr₃,hro,hom⟩ := add_between hs₂ ha₂ hr₂ hrm hfree
  have hkept₃ : ∀ m, mid.Below c m → t.read m = mid.read m := by
    intro m h
    apply hre₃.kept m (hs₂.mem_of_below h)
    rintro (rfl | rfl)
    · exact hre₂.not_mem_of_below _ h (he₁.mem hm)
    · exact ha₂ _ h
  have hbelow : ∀ m, t.Below o m ↔ mid.Below c m := fun m => Below.congr_of_moved hro hkept₃
  refine ⟨o,t,round_of_ok records hout hmid ht,hr₃,(he₁.trans hre₂.edits).trans he₃,?_,
    hre₂.holds.of_moved hro hkept₃,fun m h hms => ?_⟩
  · refine ((hre₁.trans hre₂.reworks).trans hre₃).congr (fun m hms => ?_) fun m => ?_
    · have hcc := within_refl s c
      simp only [Set.mem_union, Set.mem_insert_iff, Set.mem_singleton_iff, Set.mem_ofPred_eq,
        hwithin₁]
      grind
    · have hcc : ¬ mid.Below c c := ha₂ c
      have hcr : ¬ mid.Below c r := hfree.not_below
      have hrw : ¬ out.Within c r := fun h => hnot ((hwithin₁ r).mp h)
      simp only [Set.mem_union, Set.mem_sdiff, Set.mem_insert_iff, Set.mem_singleton_iff,
        Set.mem_ofPred_eq, within_iff (s := mid), within_iff (s := t), hbelow]
      grind
  · rcases within_iff.mp h with rfl | h
    · exact hom (hre₂.edits.mem (he₁.mem hms))
    · exact hre₂.not_mem_of_below m ((hbelow m).mp h) (he₁.mem hms)

/-- The rounds over some of the children, between those that come before and after. -/
theorem recounts_rounds {count : NodeId → TallyM ℕ} (hc : Recounts d count)
    {pre rest post : List NodeId} (hs : s.Sound) (ha : s.Acyclic)
    (hr : s.read r = ⟨.block,pre ++ (rest ++ post)⟩)
    (hw : Forall₂ (fun c w => s.treeWithin? d c = some w) rest ws)
    (hp : ∀ w ∈ ws, w.firstPending? = none) (total : ℕ) :
    ∃ os t, (List.range' pre.length rest.length).foldlM (round count r) total ⟨s,records⟩ =
        .ok (total + Tree.callsIn ws) ⟨t,(Tree.subtotalsOf ws).reverse ++ records⟩ ∧
      t.read r = ⟨.block,pre ++ (os ++ post)⟩ ∧ ExchangedAll s r rest ws os t := by
  induction rest generalizing s pre ws total records with
  | nil =>
    cases hw
    exact ⟨[],s,rfl,hr,.nil s r⟩
  | cons c rest ih =>
    obtain _ | ⟨hcw,hrest⟩ := hw
    rename_i w ws
    obtain ⟨hpw,hpws⟩ := List.forall_mem_cons.mp hp
    have hrc : s.read r = ⟨.block,pre ++ c :: (rest ++ post)⟩ := hr
    obtain ⟨o,u,hu,hr₁,hex⟩ := recounts_round records hc hs ha hrc hcw hpw total
    have hchild : ∀ x ∈ c :: rest, s.Child r x := by
      intro x hx
      exact (child_iff_of_read hr).mpr (List.mem_append_right _ (List.mem_append_left _ hx))
    have hnodup : (c :: rest).Nodup := by
      have h := List.nodup_append.mp (hs.nodup_of_read hr)
      exact (List.nodup_append.mp h.2.1).1
    have hwrest := forall₂_treeWithin?_congr hrest fun _ => hex.read_covered hs ha hchild hnodup
    have hs₁ := hex.edits.sound hs
    have hr₁' : u.read r = ⟨.block,(pre ++ [o]) ++ (rest ++ post)⟩ := by
      rw [hr₁, List.append_assoc, List.singleton_append]
    obtain ⟨os,t,ht,hr₂,hall⟩ := ih (w.subtotals.reverse ++ records) hs₁ (hex.edits.acyclic ha)
      hr₁' hwrest hpws (total + w.primitives.length)
    have hom : o ∈ u := hs₁.mem_of_child ((child_iff_of_read hr₁).mpr (by simp))
    refine ⟨o :: os,t,?_,?_,hex.cons hs ha hchild hnodup hom hall⟩
    · rw [List.length_cons, List.range'_succ, List.foldlM_cons, bind_of_ok hu, Tree.callsIn_cons,
        ← Nat.add_assoc, Tree.subtotalsOf, List.reverse_append, List.append_assoc]
      rw [List.length_append] at ht
      exact ht
    · rw [hr₂, List.append_assoc, List.singleton_append]
      rfl

theorem recounts_blockCalls {count : NodeId → TallyM ℕ} (hc : Recounts d count) (hs : s.Sound)
    (ha : s.Acyclic) (hr : s.read r = ⟨.block,cs⟩)
    (hw : Forall₂ (fun c w => s.treeWithin? d c = some w) cs ws)
    (hp : ∀ w ∈ ws, w.firstPending? = none) :
    ∃ t, blockCalls count r ⟨s,records⟩ =
        .ok (Tree.callsIn ws) ⟨t,(Tree.subtotalsOf ws).reverse ++ records⟩ ∧
      Recounted s r (.block ws) t := by
  have hrs : s.read r = ⟨.block,[] ++ (cs ++ [])⟩ := by rw [List.nil_append, List.append_nil, hr]
  obtain ⟨os,t,ht,hrt,hall⟩ := recounts_rounds records hc hs ha hrs hw hp 0
  rw [List.nil_append, List.append_nil] at hrt
  refine ⟨t,?_,hall.edits,?_,holds_of_read (l := .block) hrt hall.holds,fun m hb => ?_⟩
  · rw [blockCalls_eq, bind_of_ok (edit_of_ok (length_of_block hr)), List.range_eq_range']
    rw [Nat.zero_add] at ht
    exact ht
  · refine hall.reworks.congr (fun m _ => ?_) fun m => ?_
    · simp only [Set.mem_insert_iff, Set.mem_ofPred_eq, within_iff_covered (n := r), hr]
    · simp only [Set.mem_insert_iff, Set.mem_ofPred_eq, within_iff_covered (n := r), hrt]
  · obtain ⟨o,ho,hw⟩ := below_iff.mp hb
    exact hall.not_mem m ⟨o,(child_iff_of_read hrt).mp ho,hw⟩

end RobotCode.Tally
