import RobotCode.Proofs.Orchard
import RobotCode.Proofs.Views

/-! # Stores that mirror an orchard

A store mirrors an orchard if every root holds the tree that the orchard has for it, and only roots
are taken apart. A change of the store within the subtrees of some roots concerns the other roots
in nothing, since two roots have no node in common. So it is enough to know the values of the roots
concerned.
-/
namespace RobotCode
open Store
open List (Forall₂)
variable {s t : Store} {o : Orchard} {c m n r : NodeId} {v : Node} {w : Tree}
  {us : List (NodeId × Tree)} {F G : Set NodeId}

namespace Orchard

@[simp] theorem set_self (o : Orchard) (n : NodeId) : o.set [(n,o n)] = o := by
  funext m
  rw [set]
  split
  next e => rw [e]
  next => rfl

theorem set_of_not_mem (h : n ∉ us.map Prod.fst) : o.set us n = o n := by
  induction us with
  | nil => rfl
  | cons u us ih =>
    rw [List.map_cons, List.mem_cons, not_or] at h
    rw [set, if_neg h.1, ih h.2]

theorem mem_of_set (h : n ∈ us.map Prod.fst) : (n,o.set us n) ∈ us := by
  induction us with
  | nil => simp at h
  | cons u us ih =>
    obtain ⟨k,w⟩ := u
    rw [List.map_cons, List.mem_cons] at h
    rw [set]
    split
    next e => exact e ▸ List.mem_cons_self ..
    next hne => exact List.mem_cons_of_mem _ (ih (h.resolve_left hne))

end Orchard

structure Mirrors (s : Store) (o : Orchard) : Prop where
  sound : s.Sound
  acyclic : s.Acyclic
  holds : ∀ n, s.IsRoot n → s.Holds n (o n)
  inner : ∀ n, ¬ s.IsRoot n → o n = .block []
  assembled : ∀ {p c}, s.Child p c → (s.read c).label.awaited? = none

/-- The roots are still roots, and some names have new values. -/
structure Renewed (s : Store) (o : Orchard) (us : List (NodeId × Tree)) (t : Store) : Prop where
  kept : ∀ n ∈ s, s.IsRoot n → t.IsRoot n
  mirrors : Mirrors t (o.set us)

theorem Store.exists_child_of_not_isRoot (h : ¬ s.IsRoot n) : ∃ p, s.Child p n := by
  rwa [IsRoot, not_forall_not] at h

/-- A root stays one if only nodes that had a parent before, or new ones, have one now. -/
theorem Store.isRoot_of_old (hold : ∀ p m, t.Child p m → m ∉ s ∨ ∃ q, s.Child q m) (hn : n ∈ s)
    (hr : s.IsRoot n) : t.IsRoot n := by
  intro p hp
  rcases hold p n hp with h | ⟨q,hq⟩
  · exact h hn
  · exact hr q hq

theorem mirrors_empty : Mirrors {} fun _ => .block [] where
  sound := sound_empty
  acyclic n hn := absurd hn.mem (by simp [mem_iff, size])
  holds n _ := holds_of_empty (read_empty n)
  inner _ _ := rfl
  assembled h := absurd h.mem (by simp [mem_iff, size])

namespace Mirrors

theorem eq_of_not_mem (h : Mirrors s o) (hn : n ∉ s) : o n = .block [] := by
  by_cases hr : s.IsRoot n
  · exact (h.holds n hr).unique (holds_of_empty (read_of_not_mem hn))
  · exact h.inner n hr

theorem label (h : Mirrors s o) (hr : s.IsRoot r) : (s.read r).label = (o r).label :=
  (h.sound.of_holds (h.holds r hr)).1

theorem parts (h : Mirrors s o) (hr : s.IsRoot r) :
    Forall₂ s.Holds (s.read r).children (o r).parts :=
  (h.sound.of_holds (h.holds r hr)).2

/-- Nothing is taken apart in the tree of an assembled root. -/
theorem whole (h : Mirrors s o) (hr : s.IsRoot r) (ha : (o r).label.awaited? = none) :
    (o r).firstPending? = none := by
  rw [h.sound.firstPending?_eq_none_iff (h.holds r hr)]
  intro m hm
  rcases within_iff.mp hm with rfl | hb
  · rw [h.label hr, ha]
  · obtain ⟨p,_,hp⟩ := below_iff_tail.mp hb
    exact h.assembled hp

end Mirrors

/-- A change within the subtrees of roots whose new values are known. No root is lost by it, and
a node that has lost its parent is empty or has a known value. -/
structure Reassigns (s : Store) (F G : Set NodeId) (us : List (NodeId × Tree)) (t : Store) :
    Prop where
  edits : Edits True s t
  reworks : s.Reworks F G t
  within : ∀ m ∈ F, ∃ r ∈ us.map Prod.fst, s.IsRoot r ∧ s.Within r m
  used : ∀ m ∈ G, m ∈ us.map Prod.fst ∨ (∃ p, t.Child p m) ∧ (t.read m).label.awaited? = none
  old : ∀ p m, t.Child p m → m ∉ s ∨ ∃ q, s.Child q m
  lost : ∀ q m, s.Child q m → m ∈ F ∨ m ∈ us.map Prod.fst ∨ ∃ p, t.Child p m
  values : ∀ u ∈ us, t.IsRoot u.1 ∧ t.Holds u.1 u.2

namespace Reassigns

theorem isRoot (hc : Reassigns s F G us t) (hn : n ∈ us.map Prod.fst) : t.IsRoot n :=
  have ⟨_,hu,e⟩ := List.mem_map.mp hn
  e ▸ (hc.values _ hu).1

theorem not_mem_used (hc : Reassigns s F G us t) (hr : t.IsRoot n) (hk : n ∉ us.map Prod.fst) :
    n ∉ G := by
  intro hn
  rcases hc.used n hn with hk' | ⟨⟨p,hp⟩,_⟩
  · exact hk hk'
  · exact hr p hp

theorem holds_of_root (hc : Reassigns s F G us t) (h : Mirrors s o) (hn : n ∈ s)
    (hr : s.IsRoot n) (hk : n ∉ us.map Prod.fst) : t.Holds n (o n) := by
  apply (h.holds n hr).congr
  intro m hm
  apply hc.reworks.kept m (h.sound.mem_of_within hn hm)
  intro hmF
  obtain ⟨r,hrk,hrr,hrm⟩ := hc.within m hmF
  have hne : r ≠ n := fun e => hk (e ▸ hrk)
  exact h.sound.roots_disjoint hrr hr hne hrm hm

theorem holds (hc : Reassigns s F G us t) (h : Mirrors s o) (hr : t.IsRoot n) :
    t.Holds n (o.set us n) := by
  by_cases hk : n ∈ us.map Prod.fst
  · exact (hc.values _ (Orchard.mem_of_set hk)).2
  rw [Orchard.set_of_not_mem hk]
  have hnG := hc.not_mem_used hr hk
  by_cases hn : n ∈ s
  · by_cases hs : s.IsRoot n
    · exact hc.holds_of_root h hn hs hk
    · rw [h.inner n hs]
      obtain ⟨q,hq⟩ := exists_child_of_not_isRoot hs
      rcases hc.lost q n hq with hnF | hk' | ⟨p,hp⟩
      · exact holds_of_empty (hc.reworks.cleared n (Or.inl hnF) hnG)
      · exact absurd hk' hk
      · exact absurd hp (hr p)
  · rw [h.eq_of_not_mem hn]
    exact holds_of_empty (hc.reworks.cleared n (Or.inr hn) hnG)

theorem inner (hc : Reassigns s F G us t) (h : Mirrors s o) (hr : ¬ t.IsRoot n) :
    o.set us n = .block [] := by
  rw [Orchard.set_of_not_mem fun hk => hr (hc.isRoot hk)]
  by_cases hs : s.IsRoot n
  · exact h.eq_of_not_mem fun hn => hr (isRoot_of_old hc.old hn hs)
  · exact h.inner n hs

theorem assembled {p : NodeId} (hc : Reassigns s F G us t) (h : Mirrors s o) (hp : t.Child p m) :
    (t.read m).label.awaited? = none := by
  by_cases hG : m ∈ G
  · rcases hc.used m hG with hk | ⟨_,ha⟩
    · exact absurd hp (hc.isRoot hk p)
    · exact ha
  by_cases hF : m ∈ F ∨ m ∉ s
  · rw [hc.reworks.cleared m hF hG]
    rfl
  · rw [not_or, not_not] at hF
    rw [hc.reworks.kept m hF.2 hF.1]
    obtain ⟨q,hq⟩ := (hc.old p m hp).resolve_left (not_not_intro hF.2)
    exact h.assembled hq

end Reassigns

namespace Mirrors

theorem renewed (h : Mirrors s o) (hc : Reassigns s F G us t) : Renewed s o us t where
  kept _ hn hr := isRoot_of_old hc.old hn hr
  mirrors := {
    sound := hc.edits.sound h.sound
    acyclic := hc.edits.acyclic h.acyclic
    holds := fun _ hr => hc.holds h hr
    inner := fun _ hr => hc.inner h hr
    assembled := fun hp => hc.assembled h hp }

theorem created (h : Mirrors s o) : Renewed s o [(s.next,.block [])] (s.push {}) := by
  have he : Edits True s (s.push {}) := .single (.alloc s)
  have hchild := child_push_empty_eq s
  refine h.renewed (F := ∅) (G := {s.next}) ⟨he,?_,?_,?_,?_,?_,?_⟩
  · refine ⟨he.size_le,fun m _ _ => read_push_empty s m,fun m hm _ => ?_⟩
    rw [read_push_empty, read_of_not_mem (hm.resolve_left (Set.notMem_empty m))]
  · exact fun m hm => absurd hm (Set.notMem_empty m)
  · exact fun m hm => Or.inl (List.mem_singleton.mpr hm)
  · exact fun p m hm => Or.inr ⟨p,by rwa [hchild] at hm⟩
  · exact fun q m hm => Or.inr (Or.inr ⟨q,by rwa [hchild]⟩)
  · intro u hu
    obtain rfl := List.mem_singleton.mp hu
    refine ⟨?_,holds_of_empty (by rw [read_push_empty, read_next])⟩
    rw [IsRoot, hchild]
    exact h.sound.isRoot_next

theorem copied {k : NodeId} (h : Mirrors s o) (he : Edits True s t) (hc : s.Copied n k t)
    (hn : s.IsRoot n) (ha : (o n).label.awaited? = none) : Renewed s o [(k,o n)] t := by
  have hk := hc.holds _ (h.holds n hn)
  have hwhole := ((he.sound h.sound).firstPending?_eq_none_iff hk).mp (h.whole hn ha)
  refine h.renewed (F := ∅) (G := {m | m ∈ t ∧ m ∉ s}) ⟨he,?_,?_,?_,?_,?_,?_⟩
  · refine ⟨he.size_le,fun m hm _ => hc.extends_.read_eq m hm,fun m hm hG => ?_⟩
    apply read_of_not_mem
    intro hmt
    exact hG ⟨hmt,hm.resolve_left (Set.notMem_empty m)⟩
  · exact fun m hm => absurd hm (Set.notMem_empty m)
  · rintro m ⟨hmt,hms⟩
    have hw := hc.covers m hmt hms
    rcases within_iff.mp hw with rfl | hb
    · exact Or.inl (List.mem_singleton_self _)
    · obtain ⟨p,_,hp⟩ := below_iff_tail.mp hb
      exact Or.inr ⟨⟨p,hp⟩,hwhole m hw⟩
  · intro p m hm
    rcases hc.extends_.child_new hm with hp | hms
    · rw [Child, hc.extends_.read_eq p hp] at hm
      exact Or.inr ⟨p,hm⟩
    · exact Or.inl hms
  · intro q m hm
    refine Or.inr (Or.inr ⟨q,?_⟩)
    rwa [Child, hc.extends_.read_eq q hm.mem]
  · intro u hu
    obtain rfl := List.mem_singleton.mp hu
    exact ⟨hc.isRoot,hk⟩

/-- Counting a root changes nothing that an orchard shows. -/
theorem counted (h : Mirrors s o) (hn : s.IsRoot n) (ha : (o n).label.awaited? = none)
    (hc : Tally.Recounted s n (o n) t) : Renewed s o [(n,o n)] t := by
  have hwhole := ((hc.edits.sound h.sound).firstPending?_eq_none_iff hc.holds).mp (h.whole hn ha)
  have hread : ∀ m, ¬ t.Within n m → ∀ c, t.Child m c → s.Child m c := fun m hm c hmc =>
    ((hc.reworks.child hmc).resolve_left hm).2
  have hold : ∀ p m, t.Child p m → m ∉ s ∨ ∃ q, s.Child q m := by
    intro p m hm
    by_cases hp : t.Within n p
    · exact Or.inl (hc.not_mem_of_below m (hp.below hm.below))
    · exact Or.inr ⟨p,hread p hp m hm⟩
  refine h.renewed ⟨hc.edits,hc.reworks,?_,?_,?_,?_,?_⟩
  · exact fun m hm => ⟨n,List.mem_singleton_self n,hn,hm⟩
  · intro m hm
    rcases within_iff.mp hm with rfl | hb
    · exact Or.inl (List.mem_singleton_self _)
    · obtain ⟨p,_,hp⟩ := below_iff_tail.mp hb
      exact Or.inr ⟨⟨p,hp⟩,hwhole m hm⟩
  · exact hold
  · intro q m hm
    by_cases hq : s.Within n q
    · exact Or.inl (hq.tail hm)
    · exact Or.inr (Or.inr ⟨q,hc.reworks.child_of_not_mem hq hm⟩)
  · intro u hu
    obtain rfl := List.mem_singleton.mp hu
    refine ⟨fun p hp => ?_,hc.holds⟩
    rcases hold p n hp with hns | ⟨q,hq⟩
    · have hb : ¬ t.Within n p := by
        intro hw
        exact (hc.edits.acyclic h.acyclic) n (hw.below hp.below)
      exact hn p (hread p hb n hp)
    · exact hn q hq

end Mirrors
end RobotCode
