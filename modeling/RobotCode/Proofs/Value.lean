import Mathlib.Algebra.GroupWithZero.Nat
import Mathlib.Data.List.Forall2
import Mathlib.Data.List.Perm.Subperm
import RobotCode.Proofs.Sound
import RobotCode.Store.Edit

/-! # The values of nodes

`s.Holds n t` says that the value of `n` is `t`, with no bound on the depth. It can be taken apart
along the children of `n`, and it depends on the subtree of `n` only. In a store without cycles
every node holds a value, and it is the one that `tree?` finds.
-/
namespace RobotCode
open List (Forall₂)

theorem Tree.sizes_eq_sum (ts : List Tree) : sizes ts = (ts.map size).sum := by
  induction ts with
  | nil => rfl
  | cons t ts ih => rw [sizes, ih, List.map_cons, List.sum_cons]

/-- The primitive that a label by itself calls, if any. -/
def Label.primitives : Label → List Primitive
  | .call name => (Primitive.ofName? name).toList
  | _ => []

namespace Tree

/-- What a value says about its topmost node. -/
def label : Tree → Label
  | .block _ => .block
  | .guarded g c _ => .guarded g c
  | .call name => .call name
  | .pending k => .pending k

/-- The values directly below the topmost node. -/
def parts : Tree → List Tree
  | .block ts | .guarded _ _ ts => ts
  | .call _ | .pending _ => []

theorem tree_label (t : Tree) : t.label.tree t.parts = t := by cases t <;> rfl

theorem size_eq (t : Tree) : t.size = 1 + (t.parts.map size).sum := by
  cases t with
  | block ts => rw [size, sizes_eq_sum, parts]
  | guarded g c ts => rw [size, sizes_eq_sum, parts]
  | call name => rfl
  | pending k => rfl

theorem primitives_eq (t : Tree) :
    t.primitives = t.label.primitives ++ t.parts.flatMap primitives := by
  have hcalls : ∀ ts, (callsOf ts).filterMap Primitive.ofName? = ts.flatMap primitives := by
    intro ts
    rw [callsOf_eq_flatMap, List.filterMap_flatMap]
    rfl
  cases t with
  | block ts => exact hcalls ts
  | guarded g c ts => exact hcalls ts
  | call name =>
    cases h : Primitive.ofName? name <;> simp [label, parts, Label.primitives, primitives, calls, h]
  | pending k => rfl

/-- What is taken apart in a value is its topmost node, or else in one of the parts. -/
theorem firstPending?_eq (t : Tree) :
    t.firstPending? = (t.label.awaited? <|> firstPendingOf? t.parts) := by
  cases t <;> rfl

end Tree

@[simp] theorem Label.label_tree (l : Label) (ts : List Tree) : (l.tree ts).label = l := by
  cases l <;> rfl

theorem Label.parts_tree {l : Label} {cs : List NodeId} {ts : List Tree} (hl : l.Admits cs)
    (hlen : cs.length = ts.length) : (l.tree ts).parts = ts := by
  cases l with
  | block => rfl
  | guarded g c => rfl
  | call name =>
    obtain rfl : cs = [] := hl
    exact (List.length_eq_zero_iff.mp hlen.symm).symm
  | pending k =>
    obtain rfl : cs = [] := hl.2
    exact (List.length_eq_zero_iff.mp hlen.symm).symm

namespace Store
variable {s u : Store} {d e : ℕ} {a b c n m : NodeId} {t : Tree} {ts : List Tree}

section Forall₂
variable {α β : Type} {R : α → β → Prop} {xs : List α} {ys : List β} {x : α}

theorem exists_of_forall₂ (h : Forall₂ R xs ys) (hx : x ∈ xs) : ∃ y ∈ ys, R x y := by
  induction h with
  | nil => simp at hx
  | cons hr _ ih =>
    rcases List.mem_cons.mp hx with rfl | hx
    · exact ⟨_,List.mem_cons_self ..,hr⟩
    · obtain ⟨y,hy,h⟩ := ih hx
      exact ⟨y,List.mem_cons_of_mem _ hy,h⟩

theorem exists_forall₂ (h : ∀ x ∈ xs, ∃ y, R x y) : ∃ ys, Forall₂ R xs ys := by
  induction xs with
  | nil => exact ⟨[],.nil⟩
  | cons x xs ih =>
    obtain ⟨y,hy⟩ := h x (List.mem_cons_self ..)
    obtain ⟨ys,hys⟩ := ih fun z hz => h z (List.mem_cons_of_mem _ hz)
    exact ⟨y :: ys,.cons hy hys⟩

theorem forall₂_with_mem (h : Forall₂ R xs ys) : Forall₂ (fun x y => x ∈ xs ∧ R x y) xs ys :=
  (List.forall₂_and_left _ _).mpr ⟨fun _ hx => hx,h⟩

theorem map_eq_of_forall₂ {γ : Type} {f : α → γ} {g : β → γ}
    (h : Forall₂ (fun x y => f x = g y) xs ys) : xs.map f = ys.map g := by
  induction h with
  | nil => rfl
  | cons hf _ ih => rw [List.map_cons, List.map_cons, hf, ih]

theorem exists_iff_of_forall₂ {p : α → Prop} {q : β → Prop}
    (h : Forall₂ (fun x y => p x ↔ q y) xs ys) : (∃ x ∈ xs, p x) ↔ ∃ y ∈ ys, q y := by
  constructor
  · rintro ⟨x,hx,hp⟩
    obtain ⟨y,hy,hxy⟩ := exists_of_forall₂ h hx
    exact ⟨y,hy,hxy.mp hp⟩
  · rintro ⟨y,hy,hq⟩
    obtain ⟨x,hx,hxy⟩ := exists_of_forall₂ h.flip hy
    exact ⟨x,hx,hxy.mpr hq⟩

/-- What is related to the same list is related to each other. -/
theorem forall₂_join {γ : Type} {S : α → γ → Prop} {T : β → γ → Prop} {zs : List γ}
    (h : Forall₂ R xs ys) (k : Forall₂ S xs zs)
    (hT : ∀ x y z, x ∈ xs → y ∈ ys → R x y → S x z → T y z) : Forall₂ T ys zs := by
  induction h generalizing zs with
  | nil =>
    cases k
    exact .nil
  | cons hr _ ih =>
    obtain _ | ⟨hs,hrest⟩ := k
    refine .cons (hT _ _ _ (List.mem_cons_self ..) (List.mem_cons_self ..) hr hs) ?_
    apply ih hrest
    intro x y z hx hy
    exact hT x y z (List.mem_cons_of_mem _ hx) (List.mem_cons_of_mem _ hy)

theorem exists_of_forall₂_append_cons {ys₁ ys₂ : List β} {y : β}
    (h : Forall₂ R xs (ys₁ ++ y :: ys₂)) :
    ∃ xs₁ x xs₂, xs = xs₁ ++ x :: xs₂ ∧ Forall₂ R xs₁ ys₁ ∧ R x y ∧ Forall₂ R xs₂ ys₂ := by
  have hpre := List.forall₂_take_append _ _ _ h
  have hpost := List.forall₂_drop_append _ _ _ h
  obtain ⟨x,xs₂,hxy,hrest,hdrop⟩ := List.forall₂_cons_right_iff.mp hpost
  exact ⟨xs.take ys₁.length,x,xs₂,by rw [← hdrop, List.take_append_drop],hpre,hxy,hrest⟩

theorem forall₂_insertIdx {y : β} (h : Forall₂ R xs ys) (hxy : R x y) (i : ℕ) :
    Forall₂ R (xs.insertIdx i x) (ys.insertIdx i y) := by
  induction i generalizing xs ys with
  | zero => exact .cons hxy h
  | succ i ih =>
    cases h with
    | nil => exact .nil
    | cons hr hrest => exact .cons hr (ih hrest)

theorem exists_getElem?_of_forall₂ {i : ℕ} (h : Forall₂ R xs ys) (hx : xs[i]? = some x) :
    ∃ y, ys[i]? = some y ∧ R x y := by
  obtain ⟨hi,rfl⟩ := List.getElem?_eq_some_iff.mp hx
  have hi' : i < ys.length := h.length_eq ▸ hi
  exact ⟨ys[i],List.getElem?_eq_getElem hi',h.get hi hi'⟩

/-- Two related lists, taken apart at the first element of the second one that is not in `P`. -/
theorem exists_first_of_forall₂ {P : β → Prop} (h : Forall₂ R xs ys) (hP : ∃ y ∈ ys, ¬ P y) :
    ∃ xs₁ x xs₂ ys₁ y ys₂, xs = xs₁ ++ x :: xs₂ ∧ ys = ys₁ ++ y :: ys₂ ∧
      Forall₂ R xs₁ ys₁ ∧ R x y ∧ Forall₂ R xs₂ ys₂ ∧ (∀ z ∈ ys₁, P z) ∧ ¬ P y := by
  induction h with
  | nil => simp at hP
  | @cons x y xs ys hxy hrest ih =>
    by_cases hy : P y
    · have hrestP : ∃ z ∈ ys, ¬ P z := by
        obtain ⟨z,hz,hPz⟩ := hP
        rcases List.mem_cons.mp hz with rfl | hz
        · exact absurd hy hPz
        · exact ⟨z,hz,hPz⟩
      obtain ⟨xs₁,x',xs₂,ys₁,y',ys₂,rfl,rfl,h₁,hr,h₂,hall,hnot⟩ := ih hrestP
      exact ⟨x :: xs₁,x',xs₂,y :: ys₁,y',ys₂,rfl,rfl,.cons hxy h₁,hr,h₂,
        List.forall_mem_cons.mpr ⟨hy,hall⟩,hnot⟩
    · exact ⟨[],x,xs,[],y,ys,rfl,rfl,.nil,hxy,hrest,by simp,hy⟩

end Forall₂

theorem mapM_eq_some_iff {α β : Type} {f : α → Option β} {xs : List α} {ys : List β} :
    xs.mapM f = some ys ↔ Forall₂ (fun x y => f x = some y) xs ys := by
  induction xs generalizing ys with
  | nil => cases ys <;> simp
  | cons x xs ih =>
    rw [List.mapM_cons]
    constructor
    · intro h
      obtain ⟨y,hy,h⟩ := Option.bind_eq_some_iff.mp h
      obtain ⟨us,hus,h⟩ := Option.bind_eq_some_iff.mp h
      cases h
      exact .cons hy (ih.mp hus)
    · rintro (_ | ⟨hy,hys⟩)
      rw [hy, ih.mpr hys]
      rfl

theorem bind_eq_ok_iff {α β : Type} {x : Except Fault α} {f : α → Except Fault β} {b : β} :
    x >>= f = .ok b ↔ ∃ a, x = .ok a ∧ f a = .ok b := by
  cases x <;> simp [bind, Except.bind]

theorem mapM_eq_ok_iff {α β : Type} {f : α → Except Fault β} {xs : List α} {ys : List β} :
    xs.mapM f = .ok ys ↔ Forall₂ (fun x y => f x = .ok y) xs ys := by
  induction xs generalizing ys with
  | nil => cases ys <;> simp [pure, Except.pure]
  | cons x xs ih =>
    rw [List.mapM_cons]
    constructor
    · intro h
      obtain ⟨y,hy,h⟩ := bind_eq_ok_iff.mp h
      obtain ⟨us,hus,h⟩ := bind_eq_ok_iff.mp h
      cases h
      exact .cons hy (ih.mp hus)
    · rintro (_ | ⟨hy,hys⟩)
      rw [hy, ih.mpr hys]
      rfl

theorem treeWithin?_succ_eq_some : s.treeWithin? (d + 1) n = some t ↔
    ∃ ts, Forall₂ (fun c u => s.treeWithin? d c = some u) (s.read n).children ts ∧
      (s.read n).label.tree ts = t := by
  rw [treeWithin?, Option.map_eq_some_iff]
  exact exists_congr fun ts => and_congr_left fun _ => mapM_eq_some_iff

theorem treeWithin?_mono (h : s.treeWithin? d n = some t) (hd : d ≤ e) :
    s.treeWithin? e n = some t := by
  induction d generalizing n t e with
  | zero => simp [treeWithin?] at h
  | succ d ih =>
    obtain ⟨e,rfl⟩ : ∃ k, e = k + 1 := ⟨e - 1,by omega⟩
    obtain ⟨ts,hts,rfl⟩ := treeWithin?_succ_eq_some.mp h
    exact treeWithin?_succ_eq_some.mpr ⟨ts,hts.imp fun _ _ hc => ih hc (by omega),rfl⟩

/-- The value of `n` is `t`. -/
def Holds (s : Store) (n : NodeId) (t : Tree) : Prop := ∃ d, s.treeWithin? d n = some t

theorem Holds.unique {t u : Tree} (h : s.Holds n t) (k : s.Holds n u) : t = u := by
  obtain ⟨d,hd⟩ := h
  obtain ⟨e,he⟩ := k
  have hm := treeWithin?_mono hd (Nat.le_max_left d e)
  rw [treeWithin?_mono he (Nat.le_max_right d e)] at hm
  exact (Option.some.inj hm).symm

/-- The children of a node that hold values do so within one depth. -/
theorem exists_depth_of_forall₂ {cs : List NodeId} (h : Forall₂ s.Holds cs ts) :
    ∃ d, Forall₂ (fun c u => s.treeWithin? d c = some u) cs ts := by
  induction h with
  | nil => exact ⟨0,.nil⟩
  | cons hc _ ih =>
    obtain ⟨d,hd⟩ := hc
    obtain ⟨e,he⟩ := ih
    exact ⟨max d e,.cons (treeWithin?_mono hd (Nat.le_max_left d e))
      (he.imp fun _ _ hx => treeWithin?_mono hx (Nat.le_max_right d e))⟩

theorem holds_iff : s.Holds n t ↔
    ∃ ts, Forall₂ s.Holds (s.read n).children ts ∧ (s.read n).label.tree ts = t := by
  constructor
  · rintro ⟨d,hd⟩
    cases d with
    | zero => simp [treeWithin?] at hd
    | succ d =>
      obtain ⟨ts,hts,rfl⟩ := treeWithin?_succ_eq_some.mp hd
      exact ⟨ts,hts.imp fun _ _ hc => ⟨d,hc⟩,rfl⟩
  · rintro ⟨ts,hts,rfl⟩
    obtain ⟨d,hd⟩ := exists_depth_of_forall₂ hts
    exact ⟨d + 1,treeWithin?_succ_eq_some.mpr ⟨ts,hd,rfl⟩⟩

/-- The value of a node, from those of its children. -/
theorem holds_of_read {l : Label} {cs : List NodeId} {ts : List Tree} (h : s.read n = ⟨l,cs⟩)
    (hts : Forall₂ s.Holds cs ts) : s.Holds n (l.tree ts) := by
  rw [holds_iff, h]
  exact ⟨ts,hts,rfl⟩

theorem holds_of_empty (h : s.read n = {}) : s.Holds n (.block []) :=
  holds_of_read (l := .block) h .nil

theorem Sound.of_treeWithin? (hs : s.Sound) (h : s.treeWithin? (d + 1) n = some t) :
    (s.read n).label = t.label ∧
      Forall₂ (fun c u => s.treeWithin? d c = some u) (s.read n).children t.parts := by
  obtain ⟨ts,hts,rfl⟩ := treeWithin?_succ_eq_some.mp h
  rw [Label.label_tree, Label.parts_tree (hs.shaped n) hts.length_eq]
  exact ⟨rfl,hts⟩

/-- A node shows the label of its value, and its children hold the parts. -/
theorem Sound.of_holds (hs : s.Sound) (h : s.Holds n t) :
    (s.read n).label = t.label ∧ Forall₂ s.Holds (s.read n).children t.parts := by
  obtain ⟨ts,hts,rfl⟩ := holds_iff.mp h
  rw [Label.label_tree, Label.parts_tree (hs.shaped n) hts.length_eq]
  exact ⟨rfl,hts⟩

theorem Sound.read_of_holds_empty (hs : s.Sound) (h : s.Holds n (.block [])) : s.read n = {} := by
  obtain ⟨hl,hc⟩ := hs.of_holds h
  have hnil : (s.read n).children = [] := List.forall₂_nil_right_iff.mp hc
  calc s.read n = ⟨(s.read n).label,(s.read n).children⟩ := rfl
    _ = {} := by rw [hl, hnil]; rfl

/-- To prove something of all values, one may assume it of the values of the children. -/
theorem Holds.induction {P : NodeId → Tree → Prop} (h : s.Holds n t)
    (node : ∀ n ts, Forall₂ (fun c u => s.Holds c u ∧ P c u) (s.read n).children ts →
      P n ((s.read n).label.tree ts)) : P n t := by
  obtain ⟨d,hd⟩ := h
  induction d generalizing n t with
  | zero => simp [treeWithin?] at hd
  | succ d ih =>
    obtain ⟨ts,hts,rfl⟩ := treeWithin?_succ_eq_some.mp hd
    exact node n ts (hts.imp fun _ _ hc => ⟨⟨d,hc⟩,ih hc⟩)

/-- A value stays while no node of its subtree changes. -/
theorem treeWithin?_congr (h : s.treeWithin? d n = some t)
    (hu : ∀ m, s.Within n m → u.read m = s.read m) : u.treeWithin? d n = some t := by
  induction d generalizing n t with
  | zero => simp [treeWithin?] at h
  | succ d ih =>
    obtain ⟨ts,hts,rfl⟩ := treeWithin?_succ_eq_some.mp h
    rw [treeWithin?_succ_eq_some, hu n (within_refl s n)]
    refine ⟨ts,(forall₂_with_mem hts).imp fun c _ hc => ?_,rfl⟩
    exact ih hc.2 fun m hm => hu m ((Child.below hc.1).within.trans hm)

theorem Holds.congr (h : s.Holds n t) (hu : ∀ m, s.Within n m → u.read m = s.read m) :
    u.Holds n t := by
  obtain ⟨d,hd⟩ := h
  exact ⟨d,treeWithin?_congr hd hu⟩

/-- A node of no value stands at the top of a descending path as long as the depth searched. -/
theorem exists_path_of_treeWithin?_eq_none (h : s.treeWithin? d n = none) :
    ∃ l : List NodeId, l.length = d ∧ l.Pairwise s.Below ∧ ∀ x ∈ l, x ∈ s ∧ s.Within n x := by
  induction d generalizing n with
  | zero => exact ⟨[],rfl,.nil,by simp⟩
  | succ d ih =>
    have hc : ∃ c, s.Child n c ∧ s.treeWithin? d c = none := by
      by_contra hno
      have hall : ∀ c ∈ (s.read n).children, ∃ u, s.treeWithin? d c = some u := by
        intro c hc
        rcases hu : s.treeWithin? d c with _ | u
        · exact absurd ⟨c,hc,hu⟩ hno
        · exact ⟨u,rfl⟩
      obtain ⟨ts,hts⟩ := exists_forall₂ hall
      have hs := treeWithin?_succ_eq_some.mpr ⟨ts,hts,rfl⟩
      rw [h] at hs
      cases hs
    obtain ⟨c,hc,hd⟩ := hc
    obtain ⟨l,hl,hp,hm⟩ := ih hd
    refine ⟨n :: l,by simp [hl],List.pairwise_cons.mpr ⟨fun x hx => ?_,hp⟩,?_⟩
    · exact hc.below.within_trans (hm x hx).2
    · intro x hx
      rcases List.mem_cons.mp hx with rfl | hx
      · exact ⟨hc.mem,within_refl s x⟩
      · exact ⟨(hm x hx).1,hc.below.within.trans (hm x hx).2⟩

/-- No more different nodes can be in use than the store is large. -/
theorem length_le_size {l : List NodeId} (hl : l.Nodup) (hm : ∀ x ∈ l, x ∈ s) :
    l.length ≤ s.size := by
  have hn : (l.map NodeId.index).Nodup :=
    hl.map fun a b h => by cases a; cases b; simpa using h
  have hsub : l.map NodeId.index ⊆ List.range s.size := by
    intro i hi
    obtain ⟨x,hx,rfl⟩ := List.mem_map.mp hi
    exact List.mem_range.mpr (hm x hx)
  simpa using (List.subperm_of_subset hn hsub).length_le

/-- A descending path that is longer than the store is large comes to a node twice. -/
theorem circular_of_tree?_eq_none (h : s.tree? n = none) : s.Circular n := by
  obtain ⟨l,hl,hp,hm⟩ := exists_path_of_treeWithin?_eq_none h
  by_contra hno
  have hn : l.Nodup := hp.imp_of_mem fun {x y} hx _ hb => by
    rintro rfl
    exact hno ⟨x,(hm x hx).2,hb⟩
  have hle := length_le_size hn fun x hx => (hm x hx).1
  omega

theorem exists_treeWithin?_of_child (h : s.treeWithin? (d + 1) n = some t) (hc : s.Child n c) :
    ∃ u, s.treeWithin? d c = some u := by
  obtain ⟨ts,hts,_⟩ := treeWithin?_succ_eq_some.mp h
  obtain ⟨u,_,hu⟩ := exists_of_forall₂ hts hc
  exact ⟨u,hu⟩

theorem exists_treeWithin?_of_within (h : s.treeWithin? d n = some t) (hw : s.Within n m) :
    ∃ u, s.treeWithin? d m = some u := by
  induction hw with
  | refl => exact ⟨t,h⟩
  | tail _ hc ih =>
    obtain ⟨v,hv⟩ := ih
    exact exists_treeWithin?_of_child (treeWithin?_mono hv (Nat.le_succ d)) hc

/-- A node that lies below itself is deeper than any depth. -/
theorem treeWithin?_of_cycle (h : s.Below n n) (d : ℕ) : s.treeWithin? d n = none := by
  induction d with
  | zero => rfl
  | succ d ih =>
    by_contra hsome
    obtain ⟨t,ht⟩ := Option.ne_none_iff_exists'.mp hsome
    obtain ⟨c,hc,hw⟩ := below_iff.mp h
    obtain ⟨v,hv⟩ := exists_treeWithin?_of_child ht hc
    obtain ⟨u,hu⟩ := exists_treeWithin?_of_within hv hw
    rw [ih] at hu
    cases hu

theorem Holds.not_circular (h : s.Holds n t) : ¬ s.Circular n := by
  rintro ⟨m,hw,hcycle⟩
  obtain ⟨d,hd⟩ := h
  obtain ⟨u,hu⟩ := exists_treeWithin?_of_within hd hw
  rw [treeWithin?_of_cycle hcycle d] at hu
  cases hu

theorem holds_of_tree? (h : s.tree? n = some t) : s.Holds n t := ⟨_,h⟩

theorem Holds.tree? (h : s.Holds n t) : s.tree? n = some t := by
  cases ht : s.tree? n with
  | none => exact absurd (circular_of_tree?_eq_none ht) h.not_circular
  | some u => rw [h.unique (holds_of_tree? ht)]

theorem tree?_eq_none_iff : s.tree? n = none ↔ s.Circular n := by
  refine ⟨circular_of_tree?_eq_none,fun h => ?_⟩
  cases ht : s.tree? n with
  | none => rfl
  | some t => exact absurd h (holds_of_tree? ht).not_circular

theorem exists_tree? (hs : s.Acyclic) (n : NodeId) : ∃ t, s.tree? n = some t :=
  Option.ne_none_iff_exists'.mp fun h => hs.not_circular n (tree?_eq_none_iff.mp h)

theorem exists_holds (hs : s.Acyclic) (n : NodeId) : ∃ t, s.Holds n t := by
  obtain ⟨t,ht⟩ := exists_tree? hs n
  exact ⟨t,holds_of_tree? ht⟩

/-- The value of a node depends on the nodes of its subtree only. -/
theorem tree?_congr (hu : ∀ m, s.Within n m → u.read m = s.read m) : u.tree? n = s.tree? n := by
  have hback : ∀ m, u.Within n m → s.read m = u.read m := fun m hm =>
    (hu m ((Within.congr hu).mp hm)).symm
  refine Option.ext fun t => ⟨fun h => ?_,fun h => ?_⟩
  · exact ((holds_of_tree? h).congr hback).tree?
  · exact ((holds_of_tree? h).congr hu).tree?

/-- The nodes of the subtree of `n` down to a depth, from the top down and left to right. -/
def family (s : Store) : (depth : ℕ) → NodeId → List NodeId
  | 0, _ => []
  | d + 1, n => n :: (s.read n).children.flatMap (s.family d)

theorem mem_family (h : s.treeWithin? d n = some t) : m ∈ s.family d n ↔ s.Within n m := by
  induction d generalizing n t with
  | zero => simp [treeWithin?] at h
  | succ d ih =>
    rw [family, List.mem_cons, List.mem_flatMap, within_iff, below_iff]
    refine or_congr_right (exists_congr fun c => and_congr_right fun hm => ?_)
    obtain ⟨u,hu⟩ := exists_treeWithin?_of_child h hm
    exact ih hu

theorem Sound.forest (hs : s.Sound) (ha : s.Acyclic) : s.Forest := ⟨hs.noSharing,ha⟩

theorem Sound.not_child_of_below (hs : s.Sound) (ha : s.Acyclic) (hb : s.Child n b)
    (hm : s.Below b m) : ¬ s.Child n m := (hs.forest ha).not_child_of_below hb hm

/-- What lies strictly below a child is neither the parent nor another child. -/
theorem Sound.ne_and_not_child_of_below (hs : s.Sound) (ha : s.Acyclic) (hb : s.Child n b)
    (hm : s.Below b m) : m ≠ n ∧ ¬ s.Child n m := by
  refine ⟨?_,hs.not_child_of_below ha hb hm⟩
  rintro rfl
  exact hb.not_below ha hm

theorem Sound.siblings_disjoint (hs : s.Sound) (ha : s.Acyclic) (hb : s.Child n b)
    (hc : s.Child n c) (hne : b ≠ c) (hbm : s.Within b m) : ¬ s.Within c m :=
  (hs.forest ha).siblings_disjoint hb hc hne hbm

theorem Sound.nodup_family (hs : s.Sound) (ha : s.Acyclic) (h : s.treeWithin? d n = some t) :
    (s.family d n).Nodup := by
  induction d generalizing n t with
  | zero => simp [treeWithin?] at h
  | succ d ih =>
    rw [family, List.nodup_cons, List.nodup_flatMap]
    refine ⟨?_,?_,?_⟩
    · intro hn
      obtain ⟨c,hm,hn⟩ := List.mem_flatMap.mp hn
      obtain ⟨u,hu⟩ := exists_treeWithin?_of_child h hm
      exact ha n (Child.below hm |>.within_trans ((mem_family hu).mp hn))
    · intro c hm
      obtain ⟨u,hu⟩ := exists_treeWithin?_of_child h hm
      exact ih hu
    · refine (hs.nodup n).imp_of_mem fun {b c} hb hc' hne m hbm hcm => ?_
      obtain ⟨u,hu⟩ := exists_treeWithin?_of_child h hb
      obtain ⟨v,hv⟩ := exists_treeWithin?_of_child h hc'
      exact hs.siblings_disjoint ha hb hc' hne ((mem_family hu).mp hbm) ((mem_family hv).mp hcm)

theorem Sound.length_family (hs : s.Sound) (h : s.treeWithin? d n = some t) :
    (s.family d n).length = t.size := by
  induction d generalizing n t with
  | zero => simp [treeWithin?] at h
  | succ d ih =>
    have hts := (hs.of_treeWithin? h).2
    rw [family, List.length_cons, List.length_flatMap, t.size_eq, Nat.add_comm]
    rw [map_eq_of_forall₂ (hts.imp fun _ _ hc => ih hc)]

/-- The primitives called in a value are those that the nodes of the subtree call. -/
theorem Sound.flatMap_family (hs : s.Sound) (h : s.treeWithin? d n = some t) :
    (s.family d n).flatMap (fun m => (s.read m).label.primitives) = t.primitives := by
  induction d generalizing n t with
  | zero => simp [treeWithin?] at h
  | succ d ih =>
    obtain ⟨hl,hts⟩ := hs.of_treeWithin? h
    rw [family, List.flatMap_cons, t.primitives_eq, hl, List.flatMap_assoc, List.flatMap_def,
      List.flatMap_def]
    rw [map_eq_of_forall₂ (hts.imp fun _ _ hc => ih hc)]

/-- A value has no more nodes than its store. -/
theorem Sound.size_le (hs : s.Sound) (ha : s.Acyclic) (hn : n ∈ s) (h : s.Holds n t) :
    t.size ≤ s.size := by
  obtain ⟨d,hd⟩ := h
  rw [← hs.length_family hd]
  exact length_le_size (hs.nodup_family ha hd) fun m hm =>
    hs.mem_of_within hn ((mem_family hd).mp hm)

end Store
end RobotCode
