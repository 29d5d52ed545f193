import RobotCode.Proofs.Value

/-! # What the search finds

A search that ends has found the node sought exactly if that node lies below. In a store without
sharing and cycles it always ends, since it comes to every node of the subtree at most once.
-/
namespace RobotCode.Store
open List (Forall₂)
variable {s : Store} {n q r m : NodeId} {k : ℕ} {stack seen : List NodeId} {ts : List Tree}

theorem within_of_mem_visits (h : s.visits q k stack = some seen) (hm : m ∈ seen) :
    ∃ a ∈ stack, s.Within a m := by
  induction k generalizing stack seen with
  | zero =>
    cases stack with
    | nil =>
      cases h
      simp at hm
    | cons n stack => simp [visits] at h
  | succ k ih =>
    cases stack with
    | nil =>
      cases h
      simp at hm
    | cons n stack =>
      rw [visits] at h
      split at h
      · cases h
        exact ⟨n,List.mem_cons_self ..,List.mem_singleton.mp hm ▸ within_refl s n⟩
      · obtain ⟨rest,hrest,rfl⟩ := Option.map_eq_some_iff.mp h
        rcases List.mem_cons.mp hm with rfl | hm
        · exact ⟨m,List.mem_cons_self ..,within_refl s m⟩
        · obtain ⟨a,ha,hw⟩ := ih hrest hm
          rcases List.mem_append.mp ha with ha | ha
          · exact ⟨n,List.mem_cons_self ..,.head (List.mem_reverse.mp ha) hw⟩
          · exact ⟨a,List.mem_cons_of_mem _ ha,hw⟩

theorem mem_visits_of_within {a : NodeId} (h : s.visits q k stack = some seen) (hq : q ∉ seen)
    (ha : a ∈ stack) (hw : s.Within a m) : m ∈ seen := by
  induction k generalizing stack seen a with
  | zero =>
    cases stack with
    | nil => simp at ha
    | cons n stack => simp [visits] at h
  | succ k ih =>
    cases stack with
    | nil => simp at ha
    | cons n stack =>
      rw [visits] at h
      split at h
      next hn =>
        cases h
        exact absurd (by simp [hn]) hq
      next =>
        obtain ⟨rest,hrest,rfl⟩ := Option.map_eq_some_iff.mp h
        have hq' : q ∉ rest := fun hr => hq (List.mem_cons_of_mem _ hr)
        rcases List.mem_cons.mp ha with rfl | ha
        · rcases hw.cases_head with rfl | ⟨c,hc,hw⟩
          · exact List.mem_cons_self ..
          · have hc' : c ∈ (s.read a).children.reverse ++ stack :=
              List.mem_append_left _ (List.mem_reverse.mpr hc)
            exact List.mem_cons_of_mem _ (ih hrest hq' hc' hw)
        · exact List.mem_cons_of_mem _ (ih hrest hq' (List.mem_append_right _ ha) hw)

/-- An answer of the search is right, whatever the store looks like. -/
theorem reaches_eq_ok {b : Bool} (h : s.reaches n q = .ok b) : b = true ↔ s.Below n q := by
  rw [reaches] at h
  split at h
  next seen hv =>
    cases h
    rw [decide_eq_true_iff, below_iff]
    constructor
    · intro hq
      obtain ⟨c,hc,hw⟩ := within_of_mem_visits hv hq
      exact ⟨c,List.mem_reverse.mp hc,hw⟩
    · rintro ⟨c,hc,hw⟩
      by_contra hq
      exact hq (mem_visits_of_within hv hq (List.mem_reverse.mpr hc) hw)
  next => cases h

/-- As many steps as the values on the stack have nodes are enough. -/
theorem Sound.visits_isSome (hs : s.Sound) (h : Forall₂ s.Holds stack ts)
    (hk : (ts.map Tree.size).sum ≤ k) : ∃ seen, s.visits q k stack = some seen := by
  induction k generalizing stack ts with
  | zero =>
    cases h with
    | nil => exact ⟨[],rfl⟩
    | @cons _ t _ _ _ _ =>
      have := t.size_pos
      rw [List.map_cons, List.sum_cons] at hk
      omega
  | succ k ih =>
    cases h with
    | nil => exact ⟨[],rfl⟩
    | @cons n t stack ts hn hstack =>
      rw [visits]
      split
      · exact ⟨[n],rfl⟩
      · have hparts := (hs.of_holds hn).2
        have hsize := t.size_eq
        have hall : Forall₂ s.Holds ((s.read n).children.reverse ++ stack) (t.parts.reverse ++ ts) :=
          List.rel_append (List.forall₂_reverse_iff.mpr hparts) hstack
        obtain ⟨seen,hseen⟩ := ih hall (by
          rw [List.map_append, List.sum_append, List.map_reverse, List.sum_reverse]
          rw [List.map_cons, List.sum_cons] at hk
          omega)
        exact ⟨n :: seen,by rw [hseen]; rfl⟩

theorem Sound.reaches_isOk (hs : s.Sound) (ha : s.Acyclic) (n q : NodeId) :
    ∃ b, s.reaches n q = .ok b := by
  have hv : ∃ seen, s.search n q = some seen := by
    obtain ⟨t,ht⟩ := exists_holds ha n
    have hparts := (hs.of_holds ht).2
    apply hs.visits_isSome (List.forall₂_reverse_iff.mpr hparts)
    rw [List.map_reverse, List.sum_reverse]
    have hsize := t.size_eq
    by_cases hn : n ∈ s
    · have hle := hs.size_le ha hn ht
      omega
    · rw [read_of_not_mem hn] at hparts
      rw [List.forall₂_nil_left_iff.mp hparts]
      simp
  obtain ⟨seen,hseen⟩ := hv
  exact ⟨_,by rw [reaches, hseen]⟩

theorem Sound.reaches_eq_false (hs : s.Sound) (ha : s.Acyclic) (h : ¬ s.Below n q) :
    s.reaches n q = .ok false := by
  obtain ⟨b,hb⟩ := hs.reaches_isOk ha n q
  cases b with
  | false => exact hb
  | true => exact absurd ((reaches_eq_ok hb).mp rfl) h

theorem of_insertable {a : Argument} (h : s.insertable r a = .ok n) :
    a = .statement n ∧ n ≠ r ∧ (s.read n).label.awaited? = none ∧ ¬ s.Below n r := by
  unfold insertable at h
  split at h
  next m =>
    split at h
    next => cases h
    next hne =>
      obtain ⟨v,hv,h⟩ := bind_eq_ok_iff.mp h
      obtain ⟨b,hb,h⟩ := bind_eq_ok_iff.mp h
      split at h
      next => cases h
      next hfalse =>
        cases h
        exact ⟨rfl,hne,(assembled_eq_ok_iff.mp hv).1,fun hq =>
          hfalse ((reaches_eq_ok hb).mpr hq)⟩
  next => cases h

theorem Sound.insertable_statement (hs : s.Sound) (ha : s.Acyclic) (hne : n ≠ r)
    (hp : (s.read n).label.awaited? = none) (hb : ¬ s.Below n r) :
    s.insertable r (.statement n) = .ok n := by
  simp [insertable, hne, assembled_of_none hp, hs.reaches_eq_false ha hb, bind, Except.bind, pure,
    Except.pure]

end RobotCode.Store
