import RobotCode.Proofs.Reachable
import RobotCode.Proofs.Effects
import RobotCode.Proofs.Footprint

/-! # Outputs inside the statement taken apart

An output is only asked to be an empty block, so it may be a body of the statement taken apart, or
lie inside one. The moves into the outputs are done one after another, and what a move brings below
its own source closes a cycle. This module says exactly when that happens, and exactly when every
output ends up with the value of its body.
-/
namespace RobotCode
open Store
open List (Forall₂)
variable {s t : Store} {a b c m o p q r x y : NodeId} {g : Guarded} {v : Node} {w : Tree}
  {args : List Argument}

namespace Statement
open StoreM

theorem of_move (h : move b o s = .ok () t) :
    (s.read b).label.awaited? = none ∧ t = s.transfer b o := by
  cases hp : (s.read b).label.awaited? with
  | some k =>
    rw [move_of_some hp] at h
    cases h
  | none =>
    rw [move_of_none hp] at h
    cases h
    exact ⟨rfl,rfl⟩

theorem of_moves_cons {ps : List (NodeId × NodeId)}
    (h : (((o,b) :: ps).forM fun p => move p.2 p.1) s = .ok () t) :
    (ps.forM fun p => move p.2 p.1) (s.transfer b o) = .ok () t := by
  obtain ⟨_,u,hu,ht⟩ := exists_of_bind_ok h
  obtain ⟨_,rfl⟩ := of_move hu
  exact ht

theorem of_moves_nil (h : (([] : List (NodeId × NodeId)).forM fun p => move p.2 p.1) s = .ok () t) :
    t = s := by
  cases h
  rfl

theorem of_mapM_emptyOutput {outs : List NodeId} (h : args.mapM s.emptyOutput = .ok outs) :
    args = outs.map .statement ∧ ∀ o ∈ outs, s.read o = {} := by
  have hall : Forall₂ (fun a o => a = .statement o ∧ s.read o = {}) args outs :=
    (mapM_eq_ok_iff.mp h).imp fun _ _ => of_emptyOutput
  have hargs : Forall₂ Eq args (outs.map .statement) :=
    List.forall₂_map_right_iff.mpr (hall.imp fun _ _ h => h.1)
  refine ⟨List.forall₂_eq_eq_eq ▸ hargs,fun o ho => ?_⟩
  obtain ⟨_,_,_,he⟩ := exists_of_forall₂ hall.flip ho
  exact he

theorem of_guardedParts {p : Condition × List NodeId} (h : guardedParts g r s = .ok p t) :
    t = s ∧ s.read r = ⟨.guarded g p.1,p.2⟩ := by
  have hleads : Leads True id (guardedParts g r) s _ := leads_guardedParts
  exact hleads.result_of_ok h

theorem of_requireDistinct {e : Violation} {ns : List NodeId}
    (h : requireDistinct e ns s = .ok () t) : t = s ∧ ns.Nodup := by
  have hleads : Leads True id (requireDistinct e ns) s _ := leads_requireDistinct
  exact hleads.result_of_ok h

theorem of_disassemble {test : Condition} (h : disassemble g r args s = .ok test t) :
    ∃ (outs bodies : List NodeId) (u : Store), args = outs.map .statement ∧
      s.read r = ⟨.guarded g test,bodies⟩ ∧
      (∀ o ∈ outs, s.read o = {}) ∧ outs.Nodup ∧
      ((outs.zip bodies).forM fun p => move p.2 p.1) s = .ok () u ∧
      t = u.write r ⟨.pending g.kind,[]⟩ := by
  unfold disassemble at h
  obtain ⟨⟨c,bodies⟩,s₁,hparts,h₁⟩ := exists_of_bind_ok h
  obtain ⟨rfl,hr⟩ := of_guardedParts hparts
  dsimp only at h₁
  obtain ⟨outs,s₂,houts,h₂⟩ := exists_of_bind_ok h₁
  obtain ⟨houts,rfl⟩ := of_ask houts
  obtain ⟨hargs,he⟩ := of_mapM_emptyOutput houts
  obtain ⟨_,s₃,hdistinct,h₃⟩ := exists_of_bind_ok h₂
  obtain ⟨rfl,hd⟩ := of_requireDistinct hdistinct
  obtain ⟨_,u,hu,h₄⟩ := exists_of_bind_ok h₃
  obtain ⟨_,_,hw,h₅⟩ := exists_of_bind_ok h₄
  rw [modify_apart] at hw
  cases hw
  cases h₅
  exact ⟨outs,bodies,u,hargs,hr,he,hd,hu,rfl⟩

/-- What is no target of a move stays as it was, or is left empty. -/
theorem of_moves {ps : List (NodeId × NodeId)} (hs : s.Sound)
    (h : (ps.forM fun p => move p.2 p.1) s = .ok () t) :
    t.Sound ∧ ∀ m ∉ ps.map Prod.fst, t.read m = s.read m ∨ t.read m = {} := by
  induction ps generalizing s with
  | nil =>
    obtain rfl := of_moves_nil h
    exact ⟨hs,fun _ _ => Or.inl rfl⟩
  | cons p ps ih =>
    obtain ⟨ht,hread⟩ := ih hs.transfer (of_moves_cons h)
    refine ⟨ht,fun m hm => ?_⟩
    rw [List.map_cons, List.mem_cons, not_or] at hm
    have hm' := hread m hm.2
    rw [read_transfer, if_neg hm.1] at hm'
    split at hm'
    next => exact Or.inr (hm'.elim id id)
    next => exact hm'

theorem sound_of_disassemble {test : Condition} (hs : s.Sound)
    (h : disassemble g r args s = .ok test t) : t.Sound := by
  obtain ⟨outs,bodies,u,_,hr,he,_,hu,rfl⟩ := of_disassemble h
  obtain ⟨hsu,hread⟩ := of_moves hs hu
  have hro : r ∉ (outs.zip bodies).map Prod.fst := by
    intro hmem
    have hempty := he r ((map_fst_zip_sublist outs bodies).subset hmem)
    rw [hr] at hempty
    cases hempty
  refine hsu.write ?_ ⟨g.kind_ne_block,rfl⟩ List.nodup_nil nofun
  rcases hread r hro with h | h
  · rw [h, hr]
    exact Or.inl rfl
  · rw [h]
    exact Or.inr ⟨id,rfl⟩

theorem map_statement_injective : Function.Injective (List.map Argument.statement) :=
  List.map_injective_iff.mpr fun _ _ => Argument.statement.inj

/-- With one body there is one move. -/
theorem of_disassemble_one {test : Condition} (hb : (s.read r).children = [a])
    (h : disassemble g r [.statement o] s = .ok test t) :
    s.read o = {} ∧ t = (s.transfer a o).write r ⟨.pending g.kind,[]⟩ := by
  obtain ⟨outs,bodies,u,hargs,hr,he,_,hu,rfl⟩ := of_disassemble h
  obtain rfl : [o] = outs := map_statement_injective hargs
  rw [hr] at hb
  obtain rfl : bodies = [a] := hb
  obtain rfl := of_moves_nil (of_moves_cons hu)
  exact ⟨he o (List.mem_singleton_self o),rfl⟩

/-- With two bodies the second move starts from what the first one has left. -/
theorem of_disassemble_two {test : Condition} (hb : (s.read r).children = [a,b])
    (h : disassemble g r [.statement o,.statement p] s = .ok test t) :
    s.read o = {} ∧ s.read p = {} ∧ o ≠ p ∧
      t = ((s.transfer a o).transfer b p).write r ⟨.pending g.kind,[]⟩ := by
  obtain ⟨outs,bodies,u,hargs,hr,he,hd,hu,rfl⟩ := of_disassemble h
  obtain rfl : [o,p] = outs := map_statement_injective hargs
  rw [hr] at hb
  obtain rfl : bodies = [a,b] := hb
  obtain rfl := of_moves_nil (of_moves_cons (of_moves_cons hu))
  have hne : o ≠ p := by simpa using hd
  exact ⟨he o (by simp),he p (by simp),hne,rfl⟩

end Statement

namespace Store

/-- A node that takes over the state of another one shows it, also if both are the same. -/
theorem read_transfer_target (h : s.read b = {}) : (s.transfer a b).read b = s.read a := by
  rw [read_transfer]
  split
  next e => rw [← e, h]
  next => exact if_pos rfl

/-- To leave a node without children neither makes nor breaks a cycle that it is not part of. -/
theorem exists_cycle_write_iff (hr : ¬ s.Below r r) (hv : v.children = []) :
    (∃ n, (s.write r v).Below n n) ↔ ∃ n, s.Below n n := by
  constructor
  · rintro ⟨n,hn⟩
    rcases below_write hn (by simp [hv]) with h | ⟨_,c,hc,_⟩
    · exact ⟨n,h⟩
    · simp [hv] at hc
  · rintro ⟨n,hn⟩
    refine ⟨n,hn.of_kept fun m hnm hmn => read_write_of_ne ?_⟩
    rintro rfl
    exact hr (hmn.within_trans hnm)

theorem exists_cycle_transfer_iff (hs : s.Acyclic) :
    (∃ n, (s.transfer a b).Below n n) ↔ s.Below a b := by
  constructor
  · rintro ⟨n,hn⟩
    by_contra h
    exact hs.transfer h n hn
  · exact fun h => ⟨b,below_self_of_transfer hs h⟩

theorem not_below_self_transfer (hx : ¬ s.Below x x) (ha : ¬ s.Below a x) :
    ¬ (s.transfer a b).Below x x := by
  intro h
  rcases below_transfer h with h | ⟨_,h⟩
  · exact hx h
  · exact ha h

/-- Below a node that holds neither the source nor a part of it, a move adds what lay below the
source, if the target is there. -/
theorem below_transfer_iff (hs : s.Acyclic) (he : s.read b = {}) (hx : ¬ s.Within x a) :
    (s.transfer a b).Below x y ↔ s.Below x y ∨ s.Within x b ∧ s.Below a y := by
  have hkept : ∀ {m z}, m ≠ a → s.Below m z → (s.transfer a b).read m = s.read m := by
    intro m z hma hmz
    have hmb : m ≠ b := by
      rintro rfl
      exact not_below_of_empty he hmz
    rw [read_transfer, if_neg hma, if_neg hmb]
  have hfrom : ∀ {m}, s.Within x m → m ≠ a := by
    rintro m hm rfl
    exact hx hm
  constructor
  · exact below_transfer
  · rintro (h | ⟨hxb,hay⟩)
    · exact h.of_kept fun m hxm hmy => hkept (hfrom hxm) hmy
    · obtain ⟨c,hac,hcy⟩ := below_iff.mp hay
      have hxb' : (s.transfer a b).Within x b := hxb.of_kept fun m hxm hmb => hkept (hfrom hxm) hmb
      have hbc : (s.transfer a b).Child b c := by rwa [Child, read_transfer_target he]
      have hcy' : (s.transfer a b).Within c y := by
        refine hcy.of_kept fun m hcm hmy => hkept ?_ hmy
        rintro rfl
        exact hs m (hac.below.within_trans hcm)
      exact (hxb'.below hbc.below).within_trans hcy'

/-- Of two bodies moved one after another, a cycle comes of the first move, or of the second one by
itself, or because the first one brought the second target below the second body. -/
theorem Forest.exists_cycle_transfers_iff (hs : s.Forest) (hra : s.Child r a) (hrb : s.Child r b)
    (hab : a ≠ b) (ho : s.read o = {}) (hp : s.read p = {}) (hop : o ≠ p) :
    (∃ n, ((s.transfer a o).transfer b p).Below n n) ↔
      s.Below a o ∨ s.Below b p ∨ s.Below a p ∧ s.Within b o := by
  have hba : ¬ s.Within b a := fun h =>
    hs.siblings_disjoint hra hrb hab (within_refl s a) h
  by_cases h : s.Below a o
  · refine iff_of_true ⟨o,?_⟩ (Or.inl h)
    have hp₁ : (s.transfer a o).read p = {} := by
      rw [read_transfer, if_neg hop.symm, hp]
      split <;> rfl
    have hb₁ : ¬ (s.transfer a o).Below b o := by
      rw [below_transfer_iff hs.acyclic ho hba]
      rintro (hbo | ⟨hbo,_⟩)
      · exact hs.siblings_disjoint hra hrb hab h.within hbo.within
      · exact hs.siblings_disjoint hra hrb hab h.within hbo
    refine (below_self_of_transfer hs.acyclic h).of_kept fun m _ hmo => ?_
    have hmb : m ≠ b := by
      rintro rfl
      exact hb₁ hmo
    have hmp : m ≠ p := by
      rintro rfl
      exact not_below_of_empty hp₁ hmo
    rw [read_transfer, if_neg hmb, if_neg hmp]
  · rw [exists_cycle_transfer_iff (hs.acyclic.transfer h), below_transfer_iff hs.acyclic ho hba,
      or_iff_right h, and_comm]

end Store

namespace Statement
variable {test : Condition}

theorem exists_cycle_iff_one (hs : s.Forest) (hr : (s.read r).children = [a])
    (h : disassemble g r [.statement o] s = .ok test t) :
    (∃ n, t.Below n n) ↔ s.Below a o := by
  obtain ⟨_,rfl⟩ := of_disassemble_one hr h
  have hra : s.Child r a := by simp [Child, hr]
  have hself : ¬ (s.transfer a o).Below r r :=
    not_below_self_transfer (hs.acyclic r) (hra.not_below hs.acyclic)
  rw [exists_cycle_write_iff hself rfl, exists_cycle_transfer_iff hs.acyclic]

theorem exists_cycle_iff_two (hs : s.Forest) (hr : (s.read r).children = [a,b])
    (h : disassemble g r [.statement o,.statement p] s = .ok test t) :
    (∃ n, t.Below n n) ↔ s.Below a o ∨ s.Below b p ∨ s.Below a p ∧ s.Within b o := by
  obtain ⟨ho,hp,hop,ht⟩ := of_disassemble_two hr h
  have hra : s.Child r a := by simp [Child, hr]
  have hrb : s.Child r b := by simp [Child, hr]
  have hab : a ≠ b := by
    have hn := (noSharing_iff.mp hs.noSharing).1 r
    simpa [hr] using hn
  have hself₁ : ¬ (s.transfer a o).Below r r :=
    not_below_self_transfer (hs.acyclic r) (hra.not_below hs.acyclic)
  have hbr : ¬ (s.transfer a o).Below b r := by
    intro hb
    rcases below_transfer hb with hb | ⟨_,hb⟩
    · exact hrb.not_below hs.acyclic hb
    · exact hra.not_below hs.acyclic hb
  rw [ht, exists_cycle_write_iff (not_below_self_transfer hself₁ hbr) rfl,
    hs.exists_cycle_transfers_iff hra hrb hab ho hp hop]

end Statement

/-- In a forest, taking a statement with one body apart makes a cycle exactly if the output lies
strictly below the body. With two bodies there is a cycle exactly if an output lies strictly below
its own body, or the second output lies strictly below the first body while the first output is the
second body or lies below it. -/
theorem exists_cycle_of_disassemble_iff (hs : s.Forest) :
    (∀ {r a o c t}, (s.read r).children = [a] →
      Statement.disassembleIf r (.statement o) s = .ok c t ∨
        Statement.disassembleWhile r (.statement o) s = .ok c t →
      ((∃ n, t.Below n n) ↔ s.Below a o)) ∧
    ∀ {r a b o p c t}, (s.read r).children = [a,b] →
      Statement.disassembleIfElse r (.statement o) (.statement p) s = .ok c t →
      ((∃ n, t.Below n n) ↔ s.Below a o ∨ s.Below b p ∨ s.Below a p ∧ s.Within b o) := by
  refine ⟨fun hr h => ?_,fun hr h => Statement.exists_cycle_iff_two hs hr h⟩
  rcases h with h | h
  · exact Statement.exists_cycle_iff_one hs hr h
  · exact Statement.exists_cycle_iff_one hs hr h

/-- A spare block, a statement with a block in a block for its body, and a choice between a block in a
block and an empty block. -/
def nested : Store :=
  ⟨#[{},{},{},{},.guarded .ifThen .always [⟨5⟩],.block [⟨3⟩],{},{},{},{},
    .guarded .ifElse .always [⟨11⟩,⟨12⟩],.block [⟨8⟩],{}]⟩

theorem reachable_nested : Reachable (fun s c => c.Tame s) nested := by
  have h₁ : Reachable (fun s c => c.Tame s) ⟨#[{}]⟩ :=
    .step (c := .create) .start (by decide) trivial rfl
  have h₂ : Reachable (fun s c => c.Tame s) ⟨#[{},{},{},{},.guarded .ifThen .always [⟨5⟩],
      .block [⟨3⟩]]⟩ :=
    .step (c := .build (.ifThen (.condition .always) (.block [.block []]))) h₁ (by decide) trivial
      rfl
  exact .step (c := .build (.ifElse (.condition .always) (.block [.block []]) (.block []))) h₂
    (by decide) trivial rfl

theorem forest_nested : nested.Forest :=
  ⟨reachable_nested.sound.noSharing,reachable_nested.acyclic⟩

/-- Neither output of the choice lies below its own body. -/
theorem exists_cycle_of_nested : nested.Forest ∧
    (∃ t, Statement.disassembleIf ⟨4⟩ (.statement ⟨3⟩) nested = .ok .always t ∧
      ∃ n, t.Below n n) ∧
    ∃ t, Statement.disassembleIfElse ⟨10⟩ (.statement ⟨12⟩) (.statement ⟨8⟩) nested =
      .ok .always t ∧ ∃ n, t.Below n n := by
  have hf := forest_nested
  have h₃ : nested.Child ⟨5⟩ ⟨3⟩ := List.mem_singleton_self _
  have h₈ : nested.Child ⟨11⟩ ⟨8⟩ := List.mem_singleton_self _
  have hone : (nested.read ⟨4⟩).children = [⟨5⟩] := rfl
  have htwo : (nested.read ⟨10⟩).children = [⟨11⟩,⟨12⟩] := rfl
  have hrun : ∃ t, Statement.disassembleIf ⟨4⟩ (.statement ⟨3⟩) nested = .ok .always t := ⟨_,rfl⟩
  have hrun' : ∃ t, Statement.disassembleIfElse ⟨10⟩ (.statement ⟨12⟩) (.statement ⟨8⟩) nested =
      .ok .always t := ⟨_,rfl⟩
  obtain ⟨t,ht⟩ := hrun
  obtain ⟨u,hu⟩ := hrun'
  refine ⟨hf,⟨t,ht,?_⟩,u,hu,?_⟩
  · exact ((exists_cycle_of_disassemble_iff hf).1 hone (.inl ht)).mpr h₃.below
  · exact ((exists_cycle_of_disassemble_iff hf).2 htwo hu).mpr
      (.inr (.inr ⟨h₈.below,within_refl nested ⟨12⟩⟩))

namespace Store
variable {u w : Tree}

theorem exists_holds_both {cs : List NodeId} {ws : List Tree} (h : Forall₂ s.Holds cs ws)
    (k : Forall₂ t.Holds cs ws) (hx : x ∈ cs) : ∃ w, s.Holds x w ∧ t.Holds x w := by
  have hsame : Forall₂ (fun x y => ∃ w, s.Holds x w ∧ t.Holds y w) cs cs :=
    forall₂_join h.flip k.flip fun w _ _ _ _ hx hy => ⟨w,hx,hy⟩
  exact List.forall₂_same.mp hsame x hx

/-- Down a path on which nothing has changed, a node of the same value leads to nodes of the same
values. -/
theorem Sound.exists_holds_both_of_within (hs : s.Sound) (ht : t.Sound) (hxy : s.Within x y)
    (hk : ∀ m, s.Within x m → s.Below m y → t.read m = s.read m) (h : s.Holds x w)
    (k : t.Holds x w) : ∃ u, s.Holds y u ∧ t.Holds y u := by
  induction hxy using Relation.ReflTransGen.head_induction_on generalizing w with
  | refl => exact ⟨w,h,k⟩
  | @head x c hc hcy ih =>
    have hchild : s.Child x c := hc
    have hread := hk x (within_refl s x) (below_iff.mpr ⟨c,hc,hcy⟩)
    have hsc := (hs.of_holds h).2
    have htc := (ht.of_holds k).2
    rw [hread] at htc
    obtain ⟨u,hu,hu'⟩ := exists_holds_both hsc htc hc
    exact ih (fun m hcm => hk m (hchild.below.within.trans hcm)) hu hu'

/-- If `o` has taken over the state of `a` and holds its value, and `q` was an empty block below `a`,
then `q` still is one, whatever has been moved there. -/
theorem Sound.read_eq_empty_of_below (hs : s.Sound) (ht : t.Sound) (h : s.Holds a w)
    (k : t.Holds o w) (hread : t.read o = s.read a) (haq : s.Below a q) (hq : s.read q = {})
    (hk : ∀ m, s.Below a m → s.Below m q → t.read m = s.read m) : t.read q = {} := by
  obtain ⟨c,hac,hcq⟩ := below_iff.mp haq
  have hsc := (hs.of_holds h).2
  have htc := (ht.of_holds k).2
  rw [hread] at htc
  obtain ⟨u,hu,hu'⟩ := exists_holds_both hsc htc hac
  obtain ⟨v,hv,hv'⟩ := hs.exists_holds_both_of_within ht hcq
    (fun m hcm => hk m (hac.below.within_trans hcm)) hu hu'
  obtain rfl := hv.unique (holds_of_empty hq)
  exact ht.read_of_holds_empty hv'

/-- Nodes strictly below a child are no children of the same node, and not the node itself. -/
theorem Sound.ne_of_below (hs : s.Sound) (ha : s.Acyclic) (hx : s.Child r x) (hm : s.Below x m) :
    m ≠ r ∧ ∀ y, s.Child r y → m ≠ y := by
  refine ⟨?_,?_⟩
  · rintro rfl
    exact hx.not_below ha hm
  · rintro y hy rfl
    exact hs.not_child_of_below ha hx hm hy

theorem Sound.holds_transfer_iff (hs : s.Sound) (ha : s.Acyclic) (hra : s.Child r a)
    (hro : r ≠ o) (ho : s.read o = {}) (ht : t = (s.transfer a o).write r v) (hts : t.Sound)
    (hw : s.Holds a w) : t.Holds o w ↔ ¬ s.Below a o := by
  have hread : t.read o = s.read a := by
    rw [ht, read_write_of_ne hro.symm, read_transfer_target ho]
  have hinner : ∀ m, s.Below a m → m ≠ o → t.read m = s.read m := by
    intro m hm hmo
    obtain ⟨hmr,hmc⟩ := hs.ne_of_below ha hra hm
    rw [ht, read_write_of_ne hmr, read_transfer, if_neg (hmc a hra), if_neg hmo]
  constructor
  · intro h hao
    have hempty : t.read o = {} := by
      refine hs.read_eq_empty_of_below hts hw h hread hao ho fun m ham hmo => hinner m ham ?_
      rintro rfl
      exact ha m hmo
    exact not_below_of_empty (hread.symm.trans hempty) hao
  · intro hao
    refine hw.of_moved hread fun m hm => hinner m hm ?_
    rintro rfl
    exact hao hm

/-- What is read after the bodies `a` and `b` of a statement have gone to the empty blocks `o` and
`p` in turn. If the first output is the second body, the second output takes what was put there. -/
structure Shuffled (s : Store) (r a b o p : NodeId) (t : Store) : Prop where
  empty : s.read o = {} ∧ s.read p = {}
  first : o ≠ b → t.read o = s.read a
  second : o ≠ b → t.read p = s.read b
  swapped : o = b → t.read o = {} ∧ t.read p = s.read a
  inner : ∀ {x m}, s.Child r x → s.Below x m → m ≠ o → m ≠ p → t.read m = s.read m

theorem Sound.shuffled (hs : s.Sound) (ha : s.Acyclic) (hra : s.Child r a) (hrb : s.Child r b)
    (hab : a ≠ b) (hro : r ≠ o) (hrp : r ≠ p) (hop : o ≠ p) (ho : s.read o = {})
    (hp : s.read p = {}) :
    Shuffled s r a b o p (((s.transfer a o).transfer b p).write r v) := by
  have hp₁ : (s.transfer a o).read p = {} := by
    rw [read_transfer, if_neg hop.symm, hp]
    split <;> rfl
  refine ⟨⟨ho,hp⟩,fun hob => ?_,fun hob => ?_,fun hob => ⟨?_,?_⟩,fun hrx hm hmo hmp => ?_⟩
  · rw [read_write_of_ne hro.symm, read_transfer, if_neg hob, if_neg hop, read_transfer_target ho]
  · rw [read_write_of_ne hrp.symm, read_transfer_target hp₁, read_transfer, if_neg hab.symm,
      if_neg (Ne.symm hob)]
  · rw [read_write_of_ne hro.symm, read_transfer, if_pos hob]
  · rw [read_write_of_ne hrp.symm, read_transfer_target hp₁, ← hob, read_transfer_target ho]
  · obtain ⟨hmr,hmc⟩ := hs.ne_of_below ha hrx hm
    rw [read_write_of_ne hmr, read_transfer, if_neg (hmc b hrb), if_neg hmp, read_transfer,
      if_neg (hmc a hra), if_neg hmo]

namespace Shuffled

/-- Nothing has changed on a path down from a body to an empty block. -/
theorem read_of_below (h : Shuffled s r a b o p t) (hrx : s.Child r x) (hm : s.Below x m)
    (hmq : s.Below m q) : t.read m = s.read m := by
  refine h.inner hrx hm ?_ ?_
  · rintro rfl
    exact not_below_of_empty h.empty.1 hmq
  · rintro rfl
    exact not_below_of_empty h.empty.2 hmq

theorem ne_of_below (h : Shuffled s r a b o p t) (hbq : s.Below b q) : o ≠ b := by
  rintro rfl
  exact not_below_of_empty h.empty.1 hbq

section Values
variable (h : Shuffled s r a b o p t) (hs : s.Sound) (ht : t.Sound)
include h hs ht

theorem clear_of_within (hrb : s.Child r b) (hu : s.Holds a u) (hw : s.Holds b w)
    (hto : t.Holds o u) (htp : t.Holds p w) (hbo : s.Within b o) : s.read a = {} := by
  rcases within_iff.mp hbo with hob | hbo
  · obtain rfl := hto.unique (holds_of_empty (h.swapped hob).1)
    exact hs.read_of_holds_empty hu
  · have hob := h.ne_of_below hbo
    rw [← h.first hob]
    exact hs.read_eq_empty_of_below ht hw htp (h.second hob) hbo h.empty.1 fun _ =>
      h.read_of_below hrb

/-- If both outputs hold the values of their bodies, neither lies below its own body, and what lies
below the other body has taken over an empty block. -/
theorem of_holds (hra : s.Child r a) (hrb : s.Child r b) (hu : s.Holds a u) (hw : s.Holds b w)
    (hto : t.Holds o u) (htp : t.Holds p w) : ¬ s.Below a o ∧ ¬ s.Below b p ∧
      (s.Within b o → s.read a = {}) ∧ (s.Below a p → s.read b = {}) := by
  have hclear := h.clear_of_within hs ht hrb hu hw hto htp
  have hne : ∀ {q}, s.Below a q → o ≠ b := by
    rintro q haq rfl
    exact not_below_of_empty (hclear (within_refl s o)) haq
  have hfirst : ∀ {q}, s.Below a q → s.read q = {} → t.read q = {} := fun haq hq =>
    hs.read_eq_empty_of_below ht hu hto (h.first (hne haq)) haq hq fun _ => h.read_of_below hra
  refine ⟨fun hao => ?_,fun hbp => ?_,hclear,fun hap => ?_⟩
  · have hempty := (h.first (hne hao)).symm.trans (hfirst hao h.empty.1)
    exact not_below_of_empty hempty hao
  · have hob := h.ne_of_below hbp
    have htq : t.read p = {} :=
      hs.read_eq_empty_of_below ht hw htp (h.second hob) hbp h.empty.2 fun _ => h.read_of_below hrb
    exact not_below_of_empty ((h.second hob).symm.trans htq) hbp
  · rw [← h.second (hne hap), hfirst hap h.empty.2]

end Values

/-- Otherwise each output has the state of its body, and nothing below the bodies is changed. -/
theorem holds (h : Shuffled s r a b o p t) (hra : s.Child r a) (hrb : s.Child r b)
    (hu : s.Holds a u) (hw : s.Holds b w) (hao : ¬ s.Below a o) (hbp : ¬ s.Below b p)
    (hclear : s.Within b o → s.read a = {}) (hclear' : s.Below a p → s.read b = {}) :
    t.Holds o u ∧ t.Holds p w := by
  have hto : t.read o = s.read a := by
    by_cases hob : o = b
    · rw [(h.swapped hob).1, hclear (hob ▸ within_refl s o)]
    · exact h.first hob
  have htp : t.read p = s.read b := by
    by_cases hob : o = b
    · rw [(h.swapped hob).2, hclear (hob ▸ within_refl s o), ← hob, h.empty.1]
    · exact h.second hob
  constructor
  · refine hu.of_moved hto fun m hm => ?_
    have hmo : m ≠ o := by
      rintro rfl
      exact hao hm
    by_cases hmp : m = p
    · subst hmp
      rw [htp, hclear' hm, h.empty.2]
    · exact h.inner hra hm hmo hmp
  · refine hw.of_moved htp fun m hm => ?_
    have hmp : m ≠ p := by
      rintro rfl
      exact hbp hm
    by_cases hmo : m = o
    · subst hmo
      rw [hto, hclear hm.within, h.empty.1]
    · exact h.inner hrb hm hmo hmp

end Shuffled
end Store

namespace Statement
variable {test : Condition}

theorem ne_of_children {cs : List NodeId} (hr : (s.read r).children = a :: cs)
    (ho : s.read o = {}) : r ≠ o := by
  rintro rfl
  simp [ho] at hr

theorem tree?_eq_iff_one (hs : s.Sound) (ha : s.Acyclic) (hr : (s.read r).children = [a])
    (h : disassemble g r [.statement o] s = .ok test t) :
    t.tree? o = s.tree? a ↔ ¬ s.Below a o := by
  have hcycle := exists_cycle_iff_one (hs.forest ha) hr h
  obtain ⟨ho,ht⟩ := of_disassemble_one hr h
  have hts : t.Sound := sound_of_disassemble hs h
  have hra : s.Child r a := by simp [Child, hr]
  obtain ⟨w,hw⟩ := exists_holds ha a
  rw [← hs.holds_transfer_iff ha hra (ne_of_children hr ho) ho ht hts hw, hw.tree?]
  refine ⟨holds_of_tree?,fun hto => ?_⟩
  have hta : t.Acyclic := fun n hn => by
    have hao := hcycle.mp ⟨n,hn⟩
    exact (hs.holds_transfer_iff ha hra (ne_of_children hr ho) ho ht hts hw).mp hto hao
  exact hto.tree?

theorem tree?_eq_iff_two (hs : s.Sound) (ha : s.Acyclic) (hr : (s.read r).children = [a,b])
    (h : disassemble g r [.statement o,.statement p] s = .ok test t) :
    t.tree? o = s.tree? a ∧ t.tree? p = s.tree? b ↔ ¬ s.Below a o ∧ ¬ s.Below b p ∧
      (s.Within b o → s.read a = {}) ∧ (s.Below a p → s.read b = {}) := by
  have hcycle := exists_cycle_iff_two (hs.forest ha) hr h
  obtain ⟨ho,hp,hop,ht⟩ := of_disassemble_two hr h
  rw [ht] at hcycle ⊢
  have hra : s.Child r a := by simp [Child, hr]
  have hrb : s.Child r b := by simp [Child, hr]
  have hab : a ≠ b := by simpa [hr] using hs.nodup r
  have hshuffled := hs.shuffled (v := ⟨.pending g.kind,[]⟩) ha hra hrb hab (ne_of_children hr ho)
    (ne_of_children hr hp) hop ho hp
  obtain ⟨u,hu⟩ := exists_holds ha a
  obtain ⟨w,hw⟩ := exists_holds ha b
  rw [hu.tree?, hw.tree?]
  constructor
  · rintro ⟨hto,htp⟩
    have hts : (((s.transfer a o).transfer b p).write r ⟨.pending g.kind,[]⟩).Sound :=
      ht ▸ sound_of_disassemble hs h
    exact hshuffled.of_holds hs hts hra hrb hu hw (holds_of_tree? hto) (holds_of_tree? htp)
  · rintro ⟨hao,hbp,hclear,hclear'⟩
    obtain ⟨hto,htp⟩ := hshuffled.holds hra hrb hu hw hao hbp hclear hclear'
    have hta : Acyclic _ := fun n hn => by
      rcases hcycle.mp ⟨n,hn⟩ with h | h | ⟨hap,hbo⟩
      · exact hao h
      · exact hbp h
      · exact not_below_of_empty (hclear hbo) hap
    exact ⟨hto.tree?,htp.tree?⟩

end Statement

/-- In a forest, the output of a statement with one body gets the value of the body exactly if it
does not lie strictly below it. With two bodies, both outputs get the values of their bodies exactly
if neither lies strictly below its own body, the first one is not within the second body unless the
first body is an empty block, and the second one does not lie below the first body unless the second
body is an empty block. -/
theorem tree?_of_disassemble_iff (hs : s.Sound) (ha : s.Acyclic) :
    (∀ {r a o c t}, (s.read r).children = [a] →
      Statement.disassembleIf r (.statement o) s = .ok c t ∨
        Statement.disassembleWhile r (.statement o) s = .ok c t →
      (t.tree? o = s.tree? a ↔ ¬ s.Below a o)) ∧
    ∀ {r a b o p c t}, (s.read r).children = [a,b] →
      Statement.disassembleIfElse r (.statement o) (.statement p) s = .ok c t →
      (t.tree? o = s.tree? a ∧ t.tree? p = s.tree? b ↔ ¬ s.Below a o ∧ ¬ s.Below b p ∧
        (s.Within b o → s.read a = {}) ∧ (s.Below a p → s.read b = {})) := by
  refine ⟨fun hr h => ?_,fun hr h => Statement.tree?_eq_iff_two hs ha hr h⟩
  rcases h with h | h
  · exact Statement.tree?_eq_iff_one hs ha hr h
  · exact Statement.tree?_eq_iff_one hs ha hr h

/-- The second output may be the second body. -/
theorem tree?_of_disassemble_nested : nested.Sound ∧ nested.Acyclic ∧
    (∃ t, Statement.disassembleIf ⟨4⟩ (.statement ⟨0⟩) nested = .ok .always t ∧
      t.tree? ⟨0⟩ = nested.tree? ⟨5⟩) ∧
    ∃ t, Statement.disassembleIfElse ⟨10⟩ (.statement ⟨0⟩) (.statement ⟨12⟩) nested =
      .ok .always t ∧ t.tree? ⟨0⟩ = nested.tree? ⟨11⟩ ∧ t.tree? ⟨12⟩ = nested.tree? ⟨12⟩ := by
  have hs := reachable_nested.sound
  have ha := forest_nested.acyclic
  have hroot : nested.IsRoot ⟨0⟩ := by decide
  have hone : (nested.read ⟨4⟩).children = [⟨5⟩] := rfl
  have htwo : (nested.read ⟨10⟩).children = [⟨11⟩,⟨12⟩] := rfl
  have hrun : ∃ t, Statement.disassembleIf ⟨4⟩ (.statement ⟨0⟩) nested = .ok .always t := ⟨_,rfl⟩
  have hrun' : ∃ t, Statement.disassembleIfElse ⟨10⟩ (.statement ⟨0⟩) (.statement ⟨12⟩) nested =
      .ok .always t := ⟨_,rfl⟩
  obtain ⟨t,ht⟩ := hrun
  obtain ⟨u,hu⟩ := hrun'
  refine ⟨hs,ha,⟨t,ht,?_⟩,u,hu,?_⟩
  · exact ((tree?_of_disassemble_iff hs ha).1 hone (.inl ht)).mpr hroot.not_below
  · refine ((tree?_of_disassemble_iff hs ha).2 htwo hu).mpr
      ⟨hroot.not_below,ha ⟨12⟩,?_,fun _ => rfl⟩
    intro h
    exact absurd (hroot.eq_of_within h) (by decide)

/-- If the first output is the second body, the second output gets what was meant for the first. -/
theorem disassemble_swaps_nested : nested.Forest ∧
    nested.tree? ⟨11⟩ = some (.block [.block []]) ∧ nested.tree? ⟨12⟩ = some (.block []) ∧
    ∃ t, Statement.disassembleIfElse ⟨10⟩ (.statement ⟨12⟩) (.statement ⟨0⟩) nested =
      .ok .always t ∧ t.tree? ⟨12⟩ = some (.block []) ∧ t.tree? ⟨0⟩ = some (.block [.block []]) :=
  ⟨forest_nested,rfl,rfl,_,rfl,rfl,rfl⟩

end RobotCode
