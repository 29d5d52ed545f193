import RobotCode.Proofs.Footprint

/-! # Places

A node has its place in the list of children of its parent, and through it in the values of all that
lie above. A path of positions leads from a node down to another one, and from its value to the part
that belongs there. If that part becomes an empty block, nothing else in the value changes.
-/
namespace RobotCode
open List (Forall₂)

/-- The value with an empty block in the place that a path leads to. -/
def Tree.emptyAt : (path : List ℕ) → Tree → Tree
  | [], _ => .block []
  | i :: path, t => t.label.tree (t.parts.modify i (emptyAt path))

namespace Store
variable {s t : Store} {a c n x : NodeId} {w : Tree} {i : ℕ} {path : List ℕ}

/-- What has `n` as a child, before or after, is the same before and after. So `n` has the same
parent, or none in both stores, and the same position among its children. -/
def InPlace (s t : Store) (n : NodeId) : Prop :=
  ∀ p, s.Child p n ∨ t.Child p n → t.read p = s.read p

/-- It is enough that the old parent is as before and that no node without a parent gets one. -/
theorem Sound.inPlace (ht : t.Sound) (hold : ∀ p, s.Child p n → t.read p = s.read p)
    (hnew : ∀ p, t.Child p n → ∃ q, s.Child q n) : s.InPlace t n := by
  rintro p (hp | hp)
  · exact hold p hp
  · obtain ⟨q,hq⟩ := hnew p hp
    have htq : t.Child q n := by rwa [Child, hold q hq]
    exact ht.parent_unique htq hp ▸ hold q hq

/-- The node that a path leads to from `n`. -/
def follow? (s : Store) : (path : List ℕ) → NodeId → Option NodeId
  | [], n => some n
  | i :: path, n => (s.read n).children[i]?.bind (s.follow? path)

theorem follow?_cons_eq_some : s.follow? (i :: path) n = some x ↔
    ∃ c, (s.read n).children[i]? = some c ∧ s.follow? path c = some x := by
  rw [follow?, Option.bind_eq_some_iff]

theorem within_of_follow? (h : s.follow? path n = some x) : s.Within n x := by
  induction path generalizing n with
  | nil =>
    cases h
    exact within_refl s x
  | cons i path ih =>
    obtain ⟨c,hc,h⟩ := follow?_cons_eq_some.mp h
    have hnc : s.Child n c := List.mem_of_getElem? hc
    exact hnc.below.within.trans (ih h)

/-- Whatever lies strictly below a node can be reached by a path with at least one step. -/
theorem exists_follow? (h : s.Below n x) : ∃ i path, s.follow? (i :: path) n = some x := by
  induction h using Relation.TransGen.head_induction_on with
  | @single n hc =>
    obtain ⟨i,hi⟩ := List.mem_iff_getElem?.mp hc
    exact ⟨i,[],follow?_cons_eq_some.mpr ⟨x,hi,rfl⟩⟩
  | @head n c hc _ ih =>
    obtain ⟨i,hi⟩ := List.mem_iff_getElem?.mp hc
    obtain ⟨j,path,hpath⟩ := ih
    exact ⟨i,j :: path,follow?_cons_eq_some.mpr ⟨c,hi,hpath⟩⟩

/-- Lists that are related in a new way at one position, and in the old way elsewhere. -/
theorem forall₂_modify {α β : Type} {R S : α → β → Prop} {xs : List α} {ys : List β} {x : α}
    {f : β → β} (h : Forall₂ R xs ys) (hd : xs.Nodup) (hx : xs[i]? = some x)
    (hf : ∀ y, R x y → S x (f y)) (hrest : ∀ z ∈ xs, z ≠ x → ∀ y, R z y → S z y) :
    Forall₂ S xs (ys.modify i f) := by
  induction h generalizing i with
  | nil => simp at hx
  | @cons z y xs ys hzy hall ih =>
    rw [List.nodup_cons] at hd
    cases i with
    | zero =>
      cases hx
      refine .cons (hf y hzy) ((forall₂_with_mem hall).imp fun v u hv => ?_)
      refine hrest v (List.mem_cons_of_mem _ hv.1) ?_ u hv.2
      rintro rfl
      exact hd.1 hv.1
    | succ i =>
      rw [List.getElem?_cons_succ] at hx
      refine .cons (hrest z (List.mem_cons_self ..) ?_ y hzy) (ih hd.2 hx fun v hv =>
        hrest v (List.mem_cons_of_mem _ hv))
      rintro rfl
      exact hd.1 (List.mem_of_getElem? hx)

/-- What `f` makes of the value of one child is put in its place in the value of the parent, if
nothing outside that child changes. -/
theorem Sound.holds_modify {f : Tree → Tree} (hs : s.Sound) (ha : s.Acyclic) (hw : s.Holds a w)
    (hc : (s.read a).children[i]? = some c) (hr : t.read n = s.read a)
    (hk : ∀ m, s.Below a m → ¬ s.Within c m → t.read m = s.read m)
    (hf : ∀ u, s.Holds c u → t.Holds c (f u)) :
    t.Holds n (w.label.tree (w.parts.modify i f)) := by
  obtain ⟨hl,hparts⟩ := hs.of_holds hw
  have hread : t.read n = ⟨w.label,(s.read a).children⟩ := by rw [hr, ← hl]
  refine holds_of_read hread (forall₂_modify hparts (hs.nodup a) hc hf fun z hz hzc u hu => ?_)
  have haz : s.Child a z := hz
  have hac : s.Child a c := List.mem_of_getElem? hc
  exact hu.congr fun m hm =>
    hk m (haz.below.within_trans hm) (hs.siblings_disjoint ha haz hac hzc hm)

/-- If `x` becomes an empty block and nothing else below `a` changes, a node that takes over the state
of `a` has its value with an empty block in the place of `x`. -/
theorem Sound.holds_emptyAt (hs : s.Sound) (ha : s.Acyclic) (hw : s.Holds a w)
    (hp : s.follow? (i :: path) a = some x) (hx : t.read x = {}) (hr : t.read n = s.read a)
    (hk : ∀ m, s.Below a m → m ≠ x → t.read m = s.read m) : t.Holds n (w.emptyAt (i :: path)) := by
  induction path generalizing a n i w with
  | nil =>
    obtain ⟨c,hc,hcx⟩ := follow?_cons_eq_some.mp hp
    obtain rfl : c = x := Option.some.inj hcx
    refine hs.holds_modify ha hw hc hr (fun m hm hcm => hk m hm ?_) fun u _ => holds_of_empty hx
    rintro rfl
    exact hcm (within_refl s m)
  | cons j path ih =>
    obtain ⟨c,hc,hcx⟩ := follow?_cons_eq_some.mp hp
    have hac : s.Child a c := List.mem_of_getElem? hc
    have hbelow : s.Below c x := by
      obtain ⟨b,hb,hbx⟩ := follow?_cons_eq_some.mp hcx
      have hcb : s.Child c b := List.mem_of_getElem? hb
      exact hcb.below.within_trans (within_of_follow? hbx)
    have hne : c ≠ x := by
      rintro rfl
      exact ha c hbelow
    refine hs.holds_modify ha hw hc hr (fun m hm hcm => hk m hm ?_) fun u hu => ?_
    · rintro rfl
      exact hcm hbelow.within
    · exact ih hu hcx (hk c hac.below hne) fun m hm => hk m (hac.below.trans hm)

end Store
end RobotCode
