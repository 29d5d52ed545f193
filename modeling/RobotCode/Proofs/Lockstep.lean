import Mathlib.Data.List.Zip
import RobotCode.Proofs.Halt
import RobotCode.Proofs.Orders
import RobotCode.Proofs.Reachable

/-! # Comparison in step

Two statements are compared along one walk through both, from the top down and from left to right.
It comes to pairs of nodes, and the first pair that tells something settles the matter: the
statements differ if the pair does, and there is no answer if one of the two is taken apart. Which
statement is on the left makes no difference to that.
-/
namespace RobotCode
variable {s : Store} {m n : NodeId} {p : NodeId × NodeId} {ps : List (NodeId × NodeId)} {w : Tree}
  {d e : ℕ} {k : Kind}

section Lists
variable {α β : Type} {P Q : α → Prop} {x : α} {xs : List α}

/-- There is a first `P` or a later one in the list before which there is no `Q`. -/
def MetBefore (P Q : α → Prop) (xs : List α) : Prop :=
  ∃ pre x post, xs = pre ++ x :: post ∧ P x ∧ ∀ y ∈ pre, ¬ Q y

theorem not_metBefore_nil : ¬ MetBefore P Q [] := by
  rintro ⟨pre,x,post,h,_⟩
  simp at h

theorem metBefore_cons : MetBefore P Q (x :: xs) ↔ P x ∨ ¬ Q x ∧ MetBefore P Q xs := by
  constructor
  · rintro ⟨_ | ⟨y,pre⟩,z,post,h,hz,hpre⟩
    · obtain ⟨rfl,_⟩ := List.cons.inj h
      exact Or.inl hz
    · obtain ⟨rfl,hxs⟩ := List.cons.inj h
      obtain ⟨hx,hpre⟩ := List.forall_mem_cons.mp hpre
      exact Or.inr ⟨hx,pre,z,post,hxs,hz,hpre⟩
  · rintro (hx | ⟨hx,pre,z,post,rfl,hz,hpre⟩)
    · exact ⟨[],x,xs,rfl,hx,by simp⟩
    · exact ⟨x :: pre,z,post,rfl,hz,List.forall_mem_cons.mpr ⟨hx,hpre⟩⟩

theorem metBefore_map {f : β → α} {ys : List β} :
    MetBefore P Q (ys.map f) ↔ MetBefore (fun y => P (f y)) (fun y => Q (f y)) ys := by
  induction ys with
  | nil => exact iff_of_false not_metBefore_nil not_metBefore_nil
  | cons y ys ih => rw [List.map_cons, metBefore_cons, metBefore_cons, ih]

variable {f : α → Except Fault Bool} {e : Fault} {b : Bool} {ys : List α}

theorem allM_cons_of_ok (h : f x = .ok b) :
    (x :: xs).allM f = if b then xs.allM f else .ok false := by
  rw [List.allM_cons, h]
  rfl

theorem allM_cons_of_error (h : f x = .error e) : (x :: xs).allM f = .error e := by
  rw [List.allM_cons, h]
  rfl

theorem allM_append (f : α → Except Fault Bool) (xs ys : List α) : (xs ++ ys).allM f = do
    if ← xs.allM f then ys.allM f else return false := by
  induction xs with
  | nil => rfl
  | cons x xs ih =>
    rw [List.cons_append, List.allM_cons, List.allM_cons, ih]
    cases f x with
    | error e => rfl
    | ok b => cases b <;> rfl

/-- Asking list after list is asking all in one list. -/
theorem allM_flatMap (f : α → Except Fault Bool) (g : β → List α) (ys : List β) :
    (ys.flatMap g).allM f = ys.allM fun y => (g y).allM f := by
  induction ys with
  | nil => rfl
  | cons y ys ih =>
    rw [List.flatMap_cons, allM_append, ih, List.allM_cons]

theorem allM_congr {g : α → Except Fault Bool} (h : ∀ x ∈ xs, f x = g x) :
    xs.allM f = xs.allM g := by
  induction xs with
  | nil => rfl
  | cons x xs ih =>
    obtain ⟨hx,hxs⟩ := List.forall_mem_cons.mp h
    rw [List.allM_cons, List.allM_cons, hx, ih hxs]

theorem allM_eq_true_iff : xs.allM f = .ok true ↔ ∀ x ∈ xs, f x = .ok true := by
  induction xs with
  | nil => exact iff_of_true rfl (by simp)
  | cons x xs ih =>
    rw [List.forall_mem_cons]
    cases h : f x with
    | error e =>
      rw [allM_cons_of_error h]
      simp
    | ok b =>
      rw [allM_cons_of_ok h]
      cases b <;> simp [ih]

theorem allM_eq_false_iff : xs.allM f = .ok false ↔
    MetBefore (fun x => f x = .ok false) (fun x => ∃ e, f x = .error e) xs := by
  induction xs with
  | nil => exact iff_of_false nofun not_metBefore_nil
  | cons x xs ih =>
    rw [metBefore_cons]
    cases h : f x with
    | error e =>
      rw [allM_cons_of_error h]
      simp
    | ok b =>
      rw [allM_cons_of_ok h]
      cases b <;> simp [ih]

theorem allM_eq_error_iff : (∃ e, xs.allM f = .error e) ↔
    MetBefore (fun x => ∃ e, f x = .error e) (fun x => f x = .ok false) xs := by
  induction xs with
  | nil => exact iff_of_false (by rintro ⟨e,h⟩; cases h) not_metBefore_nil
  | cons x xs ih =>
    rw [metBefore_cons]
    cases h : f x with
    | error e =>
      rw [allM_cons_of_error h]
      simp
    | ok b =>
      rw [allM_cons_of_ok h]
      cases b <;> simp [ih]

/-- What fails is one of the questions. -/
theorem exists_of_allM_error (h : xs.allM f = .error e) : ∃ x ∈ xs, f x = .error e := by
  induction xs with
  | nil => cases h
  | cons x xs ih =>
    cases hx : f x with
    | error e' =>
      rw [allM_cons_of_error hx] at h
      cases h
      exact ⟨x,List.mem_cons_self ..,hx⟩
    | ok b =>
      rw [allM_cons_of_ok hx] at h
      split at h
      next =>
        obtain ⟨y,hy,hfy⟩ := ih h
        exact ⟨y,List.mem_cons_of_mem _ hy,hfy⟩
      next => cases h

end Lists

namespace Store

/-- The pairs that a walk through two statements at once comes to, down to a depth. Children are
paired from left to right, as long as both nodes have any. -/
def pairsWithin (s : Store) : (depth : ℕ) → NodeId × NodeId → List (NodeId × NodeId)
  | 0, _ => []
  | d + 1, p => p :: ((s.read p.1).children.zip (s.read p.2).children).flatMap (s.pairsWithin d)

/-- The pairs of a walk through the statements `m` and `n`, in the order in which they are met. -/
def lockstep (s : Store) (m n : NodeId) : List (NodeId × NodeId) := s.pairsWithin (s.size + 1) (m,n)

/-- Depth beyond that of the left statement brings no further pairs. -/
theorem pairsWithin_congr (h : s.treeWithin? d m = some w) (hd : d ≤ e) (n : NodeId) :
    s.pairsWithin e (m,n) = s.pairsWithin d (m,n) := by
  induction d generalizing m n w e with
  | zero => simp [treeWithin?] at h
  | succ d ih =>
    obtain ⟨e,rfl⟩ : ∃ k, e = k + 1 := ⟨e - 1,by omega⟩
    rw [pairsWithin, pairsWithin]
    congr 1
    refine List.flatMap_congr fun p hp => ?_
    obtain ⟨u,hu⟩ := exists_treeWithin?_of_child h (List.of_mem_zip hp).1
    exact ih hu (by omega) p.2

theorem lockstep_eq (ha : s.Acyclic) (m n : NodeId) : s.lockstep m n =
    (m,n) :: ((s.read m).children.zip (s.read n).children).flatMap fun p => s.lockstep p.1 p.2 := by
  obtain ⟨w,hw⟩ := exists_tree? ha m
  rw [lockstep, pairsWithin]
  congr 1
  refine List.flatMap_congr fun p hp => ?_
  obtain ⟨u,hu⟩ := exists_treeWithin?_of_child hw (List.of_mem_zip hp).1
  exact (pairsWithin_congr hu (Nat.le_succ _) p.2).symm

/-- One of the two nodes is taken apart. -/
def Apart (s : Store) (p : NodeId × NodeId) : Prop :=
  (s.read p.1).label.awaited? ≠ none ∨ (s.read p.2).label.awaited? ≠ none

/-- The two nodes have different kinds, tests, names or numbers of children. -/
def Differ (s : Store) (p : NodeId × NodeId) : Prop :=
  (s.cell p.1).kind ≠ (s.cell p.2).kind ∨ (s.cell p.1).test? ≠ (s.cell p.2).test? ∨
    (s.cell p.1).name? ≠ (s.cell p.2).name? ∨
    (s.cell p.1).children.length ≠ (s.cell p.2).children.length

instance (s : Store) (p : NodeId × NodeId) : Decidable (s.Differ p) :=
  inferInstanceAs (Decidable (_ ∨ _))

theorem apart_swap : s.Apart p.swap ↔ s.Apart p := or_comm

theorem differ_swap : s.Differ p.swap ↔ s.Differ p :=
  or_congr ne_comm (or_congr ne_comm (or_congr ne_comm ne_comm))

theorem not_apart_iff : ¬ s.Apart p ↔
    (s.read p.1).label.awaited? = none ∧ (s.read p.2).label.awaited? = none := by
  rw [Apart, not_or, not_not, not_not]

theorem not_differ_iff : ¬ s.Differ p ↔ (s.cell p.1).kind = (s.cell p.2).kind ∧
    (s.cell p.1).test? = (s.cell p.2).test? ∧ (s.cell p.1).name? = (s.cell p.2).name? ∧
    (s.cell p.1).children.length = (s.cell p.2).children.length := by
  simp only [Differ, not_or, not_not]

/-- Whether the two nodes of a pair look the same, with no regard to what their children are. -/
def alike (s : Store) (p : NodeId × NodeId) : Except Fault Bool := do
  let _ ← s.fields p.1
  let _ ← s.fields p.2
  return decide (¬ s.Differ p)

theorem alike_of_left (h : (s.read p.1).label.awaited? = some k) :
    s.alike p = .error (.violation (.disassembled k)) := by
  rw [alike, fields_of_some h]
  rfl

theorem alike_of_right (hl : (s.read p.1).label.awaited? = none)
    (hr : (s.read p.2).label.awaited? = some k) :
    s.alike p = .error (.violation (.disassembled k)) := by
  rw [alike, fields_of_none hl, fields_of_some hr]
  rfl

theorem alike_of_apart (h : s.Apart p) : ∃ v, s.alike p = .error (.violation v) := by
  cases hl : (s.read p.1).label.awaited? with
  | some k => exact ⟨_,alike_of_left hl⟩
  | none =>
    obtain ⟨k,hr⟩ := Option.ne_none_iff_exists'.mp (h.resolve_left (not_not_intro hl))
    exact ⟨_,alike_of_right hl hr⟩

theorem alike_of_not_apart (h : ¬ s.Apart p) : s.alike p = .ok (decide (¬ s.Differ p)) := by
  obtain ⟨hl,hr⟩ := not_apart_iff.mp h
  rw [alike, fields_of_none hl, fields_of_none hr]
  rfl

theorem alike_eq_error_iff : (∃ e, s.alike p = .error e) ↔ s.Apart p := by
  refine ⟨fun ⟨e,he⟩ => ?_,fun h => ?_⟩
  · by_contra h
    rw [alike_of_not_apart h] at he
    cases he
  · obtain ⟨v,hv⟩ := alike_of_apart h
    exact ⟨_,hv⟩

theorem alike_eq_true_iff : s.alike p = .ok true ↔ ¬ s.Apart p ∧ ¬ s.Differ p := by
  by_cases h : s.Apart p
  · obtain ⟨v,hv⟩ := alike_of_apart h
    simp [hv, h]
  · rw [alike_of_not_apart h]
    simp [h]

theorem alike_eq_false_iff : s.alike p = .ok false ↔ s.Differ p ∧ ¬ s.Apart p := by
  by_cases h : s.Apart p
  · obtain ⟨v,hv⟩ := alike_of_apart h
    simp [hv, h]
  · rw [alike_of_not_apart h]
    simp [h]

theorem equalWithin_succ (s : Store) (d : ℕ) (m n : NodeId) : s.equalWithin (d + 1) m n = do
    if ← s.alike (m,n) then
      ((s.read m).children.zip (s.read n).children).allM fun p => s.equalWithin d p.1 p.2
    else return false := by
  conv_lhs => unfold equalWithin
  unfold alike
  cases hm : (s.read m).label.awaited? with
  | some k =>
    rw [fields_of_some hm]
    rfl
  | none =>
    rw [fields_of_none hm]
    cases hn : (s.read n).label.awaited? with
    | some k =>
      rw [fields_of_some hn]
      rfl
    | none =>
      rw [fields_of_none hn]
      simp only [bind, Except.bind, pure, Except.pure, decide_eq_true_eq, not_differ_iff]
      rfl

/-- A comparison that may go as deep as the left statement asks about one pair of the walk after the
other. -/
theorem equalWithin_eq_allM (h : s.treeWithin? d m = some w) (hd : d ≤ e) :
    s.equalWithin e m n = (s.pairsWithin d (m,n)).allM s.alike := by
  induction d generalizing m n w e with
  | zero => simp [treeWithin?] at h
  | succ d ih =>
    obtain ⟨e,rfl⟩ : ∃ k, e = k + 1 := ⟨e - 1,by omega⟩
    have hchildren : ((s.read m).children.zip (s.read n).children).allM
        (fun p => s.equalWithin e p.1 p.2) =
        (((s.read m).children.zip (s.read n).children).flatMap (s.pairsWithin d)).allM s.alike := by
      rw [allM_flatMap]
      refine allM_congr fun p hp => ?_
      obtain ⟨u,hu⟩ := exists_treeWithin?_of_child h (List.of_mem_zip hp).1
      exact ih hu (by omega)
    rw [equalWithin_succ, hchildren, pairsWithin, List.allM_cons]

theorem equal_eq_allM (ha : s.Acyclic) (m n : NodeId) :
    s.equal m n = (s.lockstep m n).allM s.alike := by
  obtain ⟨w,hw⟩ := exists_tree? ha m
  have hle : s.size + 1 ≤ s.size * s.size + 1 := by
    have := Nat.le_mul_self s.size
    omega
  exact equalWithin_eq_allM hw hle

theorem equal_eq_true_iff (ha : s.Acyclic) :
    s.equal m n = .ok true ↔ ∀ p ∈ s.lockstep m n, ¬ s.Apart p ∧ ¬ s.Differ p := by
  rw [equal_eq_allM ha, allM_eq_true_iff]
  simp only [alike_eq_true_iff]

theorem equal_eq_false_iff (ha : s.Acyclic) : s.equal m n = .ok false ↔
    MetBefore (fun p => s.Differ p ∧ ¬ s.Apart p) s.Apart (s.lockstep m n) := by
  rw [equal_eq_allM ha, allM_eq_false_iff]
  simp only [alike_eq_false_iff, alike_eq_error_iff]

theorem equal_eq_error_iff (ha : s.Acyclic) : (∃ e, s.equal m n = .error e) ↔
    MetBefore s.Apart (fun p => s.Differ p ∧ ¬ s.Apart p) (s.lockstep m n) := by
  rw [equal_eq_allM ha, allM_eq_error_iff]
  simp only [alike_eq_false_iff, alike_eq_error_iff]

/-- A comparison fails only as a violation. -/
theorem exists_violation (ha : s.Acyclic) {e : Fault} (h : s.equal m n = .error e) :
    ∃ v, e = .violation v := by
  rw [equal_eq_allM ha] at h
  obtain ⟨p,_,hp⟩ := exists_of_allM_error h
  obtain ⟨v,hv⟩ := alike_of_apart (alike_eq_error_iff.mp ⟨e,hp⟩)
  exact ⟨v,Except.error.inj (hp.symm.trans hv)⟩

theorem pairsWithin_swap (s : Store) (d : ℕ) (p : NodeId × NodeId) :
    s.pairsWithin d p.swap = (s.pairsWithin d p).map Prod.swap := by
  induction d generalizing p with
  | zero => rfl
  | succ d ih =>
    rw [pairsWithin, pairsWithin, List.map_cons, List.map_flatMap, Prod.fst_swap, Prod.snd_swap,
      ← List.zip_swap, List.flatMap_map]
    simp only [ih]

theorem lockstep_swap (s : Store) (m n : NodeId) :
    s.lockstep n m = (s.lockstep m n).map Prod.swap := s.pairsWithin_swap _ (m,n)

theorem equal_eq_ok_comm (ha : s.Acyclic) (b : Bool) :
    s.equal n m = .ok b ↔ s.equal m n = .ok b := by
  cases b with
  | false =>
    rw [equal_eq_false_iff ha, equal_eq_false_iff ha, lockstep_swap, metBefore_map]
    simp only [apart_swap, differ_swap]
  | true =>
    rw [equal_eq_true_iff ha, equal_eq_true_iff ha, lockstep_swap, List.forall_mem_map]
    simp only [apart_swap, differ_swap]

theorem equal_eq_error_comm (ha : s.Acyclic) :
    (∃ e, s.equal n m = .error e) ↔ ∃ e, s.equal m n = .error e := by
  rw [equal_eq_error_iff ha, equal_eq_error_iff ha, lockstep_swap, metBefore_map]
  simp only [apart_swap, differ_swap]

end Store

open Store Statement

theorem equalStatements_eq_ok_iff {b : Bool} :
    equalStatements (.statement m) (.statement n) s = .ok b s ↔ s.equal m n = .ok b := by
  show StoreM.ask (·.equal m n) s = .ok b s ↔ _
  cases h : s.equal m n with
  | ok c => simp [StoreM.ask_of_ok (f := (·.equal m n)) h]
  | error e => simp [StoreM.ask_of_error (f := (·.equal m n)) h]

theorem equalStatements_eq_violation_iff (ha : s.Acyclic) :
    (∃ v, equalStatements (.statement m) (.statement n) s = .error (.violation v) s) ↔
      ∃ e, s.equal m n = .error e := by
  show (∃ v, StoreM.ask (·.equal m n) s = .error (.violation v) s) ↔ _
  cases h : s.equal m n with
  | ok c => simp [StoreM.ask_of_ok (f := (·.equal m n)) h]
  | error e =>
    obtain ⟨v,rfl⟩ := exists_violation ha h
    simp [StoreM.ask_of_error (f := (·.equal m n)) h]

/-- The comparison of two statements of a forest has one of three outcomes, and the same one
whichever of them is on the left. It says that they differ if the walk through both comes to nodes
of different kinds, tests, names or numbers of children before it comes to any node that is taken
apart. It fails if it comes to such a node first. They are equal only if it comes to neither. -/
theorem comparison_settled_in_step (hf : s.Forest) (m n : NodeId) :
    ((∃ b, equalStatements (.statement m) (.statement n) s = .ok b s) ∨
      ∃ v, equalStatements (.statement m) (.statement n) s = .error (.violation v) s) ∧
    (∀ b, equalStatements (.statement n) (.statement m) s = .ok b s ↔
      equalStatements (.statement m) (.statement n) s = .ok b s) ∧
    ((∃ v, equalStatements (.statement n) (.statement m) s = .error (.violation v) s) ↔
      ∃ v, equalStatements (.statement m) (.statement n) s = .error (.violation v) s) ∧
    (equalStatements (.statement m) (.statement n) s = .ok true s ↔
      ∀ p ∈ s.lockstep m n, ¬ s.Apart p ∧ ¬ s.Differ p) ∧
    (equalStatements (.statement m) (.statement n) s = .ok false s ↔
      MetBefore (fun p => s.Differ p ∧ ¬ s.Apart p) s.Apart (s.lockstep m n)) ∧
    ((∃ v, equalStatements (.statement m) (.statement n) s = .error (.violation v) s) ↔
      MetBefore s.Apart (fun p => s.Differ p ∧ ¬ s.Apart p) (s.lockstep m n)) := by
  have ha := hf.acyclic
  simp only [equalStatements_eq_ok_iff, equalStatements_eq_violation_iff ha]
  refine ⟨?_,equal_eq_ok_comm ha,equal_eq_error_comm ha,equal_eq_true_iff ha,
    equal_eq_false_iff ha,equal_eq_error_iff ha⟩
  cases s.equal m n with
  | ok b => exact Or.inl ⟨b,rfl⟩
  | error e => exact Or.inr ⟨e,rfl⟩

/-- A call that is taken apart is of no account for a block and a choice, but the two blocks above
it come to it in their second pair. -/
theorem comparison_settled_in_step_stranded : stranded.Forest ∧
    equalStatements (.statement ⟨5⟩) (.statement ⟨6⟩) stranded = .ok false stranded ∧
    equalStatements (.statement ⟨6⟩) (.statement ⟨5⟩) stranded = .ok false stranded ∧
    ∃ v, equalStatements (.statement ⟨5⟩) (.statement ⟨4⟩) stranded =
      .error (.violation v) stranded := by
  have hchoice : stranded.lockstep ⟨5⟩ ⟨6⟩ = [(⟨5⟩,⟨6⟩),(⟨6⟩,⟨4⟩),(⟨4⟩,⟨2⟩)] := rfl
  have hblocks : stranded.lockstep ⟨5⟩ ⟨4⟩ = [(⟨5⟩,⟨4⟩),(⟨6⟩,⟨2⟩)] := rfl
  obtain ⟨_,hswap,_,_,hdiffer,_⟩ := comparison_settled_in_step forest_stranded ⟨5⟩ ⟨6⟩
  obtain ⟨_,_,_,_,_,hfail⟩ := comparison_settled_in_step forest_stranded ⟨5⟩ ⟨4⟩
  have hfalse : equalStatements (.statement ⟨5⟩) (.statement ⟨6⟩) stranded =
      .ok false stranded := by
    rw [hdiffer, hchoice]
    exact ⟨[],_,_,rfl,⟨by decide,not_apart_iff.mpr ⟨rfl,rfl⟩⟩,by simp⟩
  refine ⟨forest_stranded,hfalse,(hswap false).mpr hfalse,?_⟩
  rw [hfail, hblocks]
  refine ⟨[(⟨5⟩,⟨4⟩)],(⟨6⟩,⟨2⟩),[],rfl,Or.inr (by decide),?_⟩
  simp only [List.mem_singleton, forall_eq, not_and, not_not]
  intro hne
  rcases hne with h | h | h | h <;> exact absurd rfl h

end RobotCode
