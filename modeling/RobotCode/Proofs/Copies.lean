import RobotCode.Proofs.Steps

/-! # Copies

A copy writes new nodes only, each over copies of its children that are roots by then. The store
with the copy in it extends the one before, and the copy holds the value of the original.
-/
namespace RobotCode
open Relation
open List (Forall₂)
variable {tame : Prop} {s t u : Store} {n m o p q r c : NodeId} {v : Cell} {w : Tree} {d : ℕ}

namespace Store

/-- Nodes in use stay as they are, and those that are new have only new children. -/
structure Extends (s t : Store) : Prop where
  size_le : s.size ≤ t.size
  read_eq : ∀ n ∈ s, t.read n = s.read n
  child_new : ∀ {p c}, t.Child p c → p ∈ s ∨ c ∉ s

namespace Extends

theorem refl (s : Store) : s.Extends s := ⟨Nat.le_refl _,fun _ _ => rfl,fun h => Or.inl h.mem⟩

theorem mem (h : s.Extends t) (hn : n ∈ s) : n ∈ t := Nat.lt_of_lt_of_le hn h.size_le

theorem trans (h : s.Extends t) (k : t.Extends u) : s.Extends u where
  size_le := Nat.le_trans h.size_le k.size_le
  read_eq n hn := (k.read_eq n (h.mem hn)).trans (h.read_eq n hn)
  child_new {p c} hc := by
    rcases k.child_new hc with hp | hp
    · rw [Child, k.read_eq p hp] at hc
      exact h.child_new hc
    · exact Or.inr fun hs => hp (h.mem hs)

theorem isRoot (h : s.Extends t) (hn : n ∈ s) (hr : s.IsRoot n) : t.IsRoot n := by
  intro p hp
  rcases h.child_new hp with hs | hs
  · rw [Child, h.read_eq p hs] at hp
    exact hr p hp
  · exact hs hn

theorem holds (h : s.Extends t) (hs : s.Sound) (hn : n ∈ s) (hw : s.Holds n w) : t.Holds n w :=
  hw.congr fun m hm => h.read_eq m (hs.mem_of_within hn hm)

end Extends

/-- Paths go on in a store that extends the one before. -/
theorem Extends.within (h : s.Extends t) (hw : s.Within n m) : t.Within n m := by
  induction hw with
  | refl => exact within_refl t n
  | tail _ hc ih => exact ih.tail (by rwa [Child, h.read_eq _ hc.mem])

theorem Extends.push (h : s.Extends t) (hv : ∀ c ∈ v.children, c ∉ s) : s.Extends (t.push v) where
  size_le := Nat.le_trans h.size_le (by simp)
  read_eq n hn := (read_push_of_mem v (h.mem hn)).trans (h.read_eq n hn)
  child_new {p c} hc := by
    rw [Child, read_push] at hc
    split at hc
    next => exact Or.inr (hv c hc)
    next => exact h.child_new hc

theorem push_eq_put (s : Store) (v : Cell) : s.push v = (s.push {}).put s.next v := by
  simp [push, put, next, size, Array.setIfInBounds, Array.set_push]

theorem push_eq_write (hv : v.Fits) (ha : v.awaited? = none) :
    s.push v = (s.push {}).write s.next v.node := by
  have hc : (s.push {}).cell s.next = {} := by rw [cell_push, if_pos rfl]
  rw [push_eq_put, write, hc, hv.become_node ha]

theorem Sound.holds_push (ht : t.Sound) (ho : o ∈ t) (h : t.Holds o w) : (t.push v).Holds o w :=
  h.congr fun _ hm => read_push_of_mem v (ht.mem_of_within ho hm)

theorem Sound.within_push (ht : t.Sound) (ho : o ∈ t) : (t.push v).Within o m ↔ t.Within o m :=
  Within.congr fun _ hm => read_push_of_mem v (ht.mem_of_within ho hm)

theorem child_push_next (h : c ∈ v.children) : (t.push v).Child t.next c := by
  rwa [Child, read_push_next]

/-- `o` is a new root in `t`, which extends `s` by its subtree only, and it holds what `n` holds in
`s`. -/
structure Copied (s : Store) (n o : NodeId) (t : Store) : Prop where
  extends_ : s.Extends t
  mem : o ∈ t
  not_mem : o ∉ s
  isRoot : t.IsRoot o
  holds : ∀ w, s.Holds n w → t.Holds o w
  covers : ∀ m ∈ t, m ∉ s → t.Within o m

/-- The same for a list of nodes, the copies being different. -/
structure CopiedAll (s : Store) (ns os : List NodeId) (t : Store) : Prop where
  extends_ : s.Extends t
  nodup : os.Nodup
  fresh : ∀ o ∈ os, o ∈ t ∧ o ∉ s ∧ t.IsRoot o
  holds : Forall₂ (fun n o => ∀ w, s.Holds n w → t.Holds o w) ns os
  covers : ∀ m ∈ t, m ∉ s → ∃ o ∈ os, t.Within o m

/-- A new node over copies of children. -/
theorem Sound.edits_push (ht : t.Sound) (hv : v.Fits) (ha : v.awaited? = none)
    (hd : v.children.Nodup) (hc : ∀ c ∈ v.children, c ∈ t ∧ t.IsRoot c) :
    Edits tame t (t.push v) := by
  rw [push_eq_write hv ha]
  refine ReflTransGen.tail (.single (.alloc t))
    (.write t.next_mem_push ?_ hv.shaped hd fun c hm => ?_)
  · rw [read_push_next]
    exact Cell.yields_label ha
  obtain ⟨hmem,hroot⟩ := hc c hm
  refine Or.inr ⟨mem_push.mpr (Or.inl hmem),?_,?_⟩
  · rwa [IsRoot, child_push_empty_eq]
  · rw [Within, child_push_empty_eq]
    intro hw
    exact ne_next hmem (ht.isRoot_next.eq_of_within hw).symm

end Store

namespace Statement
open StoreM Store

theorem leads_copies {f : NodeId → StoreM NodeId} {cs : List NodeId}
    (hf : ∀ c t, t.Sound → c ∈ t → Leads tame id (f c) t (Copied t c)) (hs : s.Sound)
    (hc : ∀ c ∈ cs, c ∈ s) : Leads tame id (cs.mapM f) s (CopiedAll s cs) := by
  induction cs generalizing s with
  | nil => exact leads_pure ⟨.refl s,List.nodup_nil,by simp,.nil,fun m hm hn => absurd hm hn⟩
  | cons c cs ih =>
    rw [List.mapM_cons]
    have hcs := List.forall_mem_cons.mp hc
    refine leads_bind (hf c s hs hcs.1) fun o t ht ho => ?_
    have hst := ht.sound hs
    refine leads_bind (ih hst fun b hb => ht.mem (hcs.2 b hb)) fun os u hu hos => leads_pure ?_
    refine ⟨ho.extends_.trans hos.extends_,?_,?_,.cons ?_ ?_,?_⟩
    · exact List.nodup_cons.mpr ⟨fun h => (hos.fresh o h).2.1 ho.mem,hos.nodup⟩
    · intro b hb
      rcases List.mem_cons.mp hb with rfl | hb
      · exact ⟨hos.extends_.mem ho.mem,ho.not_mem,hos.extends_.isRoot ho.mem ho.isRoot⟩
      · obtain ⟨hm,hn,hr⟩ := hos.fresh b hb
        exact ⟨hm,fun h => hn (ht.mem h),hr⟩
    · exact fun w hw => hos.extends_.holds hst ho.mem (ho.holds w hw)
    · refine (forall₂_with_mem hos.holds).imp fun b o hb w hw => hb.2 w ?_
      exact ho.extends_.holds hs (hcs.2 b hb.1) hw
    · intro m hm hn
      by_cases hmt : m ∈ t
      · exact ⟨o,List.mem_cons_self ..,hos.extends_.within (ho.covers m hmt hn)⟩
      · obtain ⟨b,hb,hw⟩ := hos.covers m hm hmt
        exact ⟨b,List.mem_cons_of_mem _ hb,hw⟩

theorem leads_copyWithin (hs : s.Sound) (hn : n ∈ s) :
    Leads tame id (copyWithin d n) s (Copied s n) := by
  induction d generalizing s n with
  | zero => exact leads_throw
  | succ d ih =>
    unfold copyWithin
    refine leads_ask_bind fun v hv => ?_
    obtain ⟨hp,rfl⟩ := fields_eq_ok_iff.mp hv
    rw [awaited?_read] at hp
    have hcs : ∀ c ∈ (s.cell n).children, c ∈ s := fun c hc => hs.mem_of_child hc
    refine leads_bind (leads_copies (fun c t ht hc => ih ht hc) hs hcs) fun os t ht hos => ?_
    have hst := ht.sound hs
    have hfits := (hs.fits n).of_length hp hos.holds.length_eq.symm
    refine ⟨hst.edits_push hfits rfl hos.nodup fun o ho => ?_,?_,?_,?_,?_,?_,?_⟩
    · exact ⟨(hos.fresh o ho).1,(hos.fresh o ho).2.2⟩
    · exact hos.extends_.push fun o ho => (hos.fresh o ho).2.1
    · exact mem_push.mpr (Or.inr rfl)
    · exact fun h => t.next_not_mem (hos.extends_.mem h)
    · intro p hp
      rw [Child, read_push] at hp
      split at hp
      next => exact t.next_not_mem (hos.fresh _ hp).1
      next => exact hst.isRoot_next p hp
    · intro w hw
      obtain ⟨ws,hws,rfl⟩ := holds_iff.mp hw
      rw [holds_iff, read_push_next, Cell.node, Cell.label_eq_of_children hp]
      refine ⟨ws,?_,rfl⟩
      apply forall₂_join hos.holds hws
      intro c o w _ ho hcopy hcw
      exact hst.holds_push (hos.fresh o ho).1 (hcopy w hcw)
    · intro m hm hms
      rcases mem_push.mp hm with hmt | rfl
      · obtain ⟨o,ho,hw⟩ := hos.covers m hmt hms
        refine Within.trans ?_ ((hst.within_push (hos.fresh o ho).1).mpr hw)
        exact (child_push_next ho).below.within
      · exact within_refl _ _

end Statement
end RobotCode
