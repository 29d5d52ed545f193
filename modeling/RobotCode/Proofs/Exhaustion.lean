import Mathlib.Data.Set.Card
import RobotCode.Proofs.Halt
import RobotCode.Proofs.Orders
import RobotCode.Proofs.Views

/-! # The search leaves nothing out

What the search has looked at and what is still waiting on its stack are together what lies below
the node at which it began. In a forest nothing is twice in there, so that the search comes to an
end, looks at no node a second time, and misses none if it finds nothing.
-/
namespace RobotCode
open Store
variable {s : Store} {m n q : NodeId} {w : Tree} {j k : ℕ} {stack seen : List NodeId}

namespace Store

/-- The nodes on the stack, each with all that lies below it. -/
def waiting (s : Store) (stack : List NodeId) : List NodeId := stack.flatMap s.preorder

theorem waiting_reverse (s : Store) (ns : List NodeId) :
    (s.waiting ns.reverse).Perm (s.waiting ns) :=
  (List.reverse_perm ns).flatMap_right _

/-- One turn takes the node on top out of what is waiting, and nothing else. -/
theorem waiting_turn (ha : s.Acyclic) (n : NodeId) (stack : List NodeId) :
    (s.waiting (n :: stack)).Perm (n :: s.waiting ((s.read n).children.reverse ++ stack)) := by
  have hturn : s.waiting (n :: stack) = n :: (s.waiting (s.read n).children ++ s.waiting stack) := by
    rw [waiting, List.flatMap_cons, preorder_eq ha]
    rfl
  have hpush : s.waiting ((s.read n).children.reverse ++ stack) =
      s.waiting (s.read n).children.reverse ++ s.waiting stack := List.flatMap_append
  rw [hturn, hpush]
  exact (((s.waiting_reverse _).symm).append_right _).cons n

/-- With as many steps as there are nodes waiting the search ends. Those that it has looked at and
the rest are the ones that were waiting, and without success there is no rest. -/
theorem exists_visits (ha : s.Acyclic) (hk : (s.waiting stack).length ≤ k) :
    ∃ seen rest, s.visits q k stack = some seen ∧ (s.waiting stack).Perm (seen ++ rest) ∧
      (q ∉ seen → rest = []) := by
  induction k generalizing stack with
  | zero =>
    cases stack with
    | nil => exact ⟨[],[],rfl,.refl _,fun _ => rfl⟩
    | cons n stack =>
      rw [(waiting_turn ha n stack).length_eq, List.length_cons] at hk
      omega
  | succ k ih =>
    cases stack with
    | nil => exact ⟨[],[],rfl,.refl _,fun _ => rfl⟩
    | cons n stack =>
      have hturn := waiting_turn ha n stack
      rw [visits]
      split
      next hn => exact ⟨[n],_,rfl,hturn,fun hq => absurd (by simp [hn]) hq⟩
      next =>
        rw [hturn.length_eq, List.length_cons] at hk
        obtain ⟨seen,rest,hseen,hperm,hrest⟩ := ih (Nat.le_of_succ_le_succ hk)
        refine ⟨n :: seen,rest,by rw [hseen]; rfl,hturn.trans (hperm.cons n),fun hq => ?_⟩
        exact hrest fun hs => hq (List.mem_cons_of_mem n hs)

theorem length_pos_of_visits (h : s.visits q j (n :: stack) = some seen) : 0 < seen.length := by
  cases j with
  | zero => cases h
  | succ j =>
    rw [visits] at h
    split at h
    next =>
      cases h
      exact Nat.one_pos
    next =>
      obtain ⟨rest,_,rfl⟩ := Option.map_eq_some_iff.mp h
      exact Nat.succ_pos _

/-- A search that ends has taken one step for each node looked at, however many it is allowed. -/
theorem visits_eq_ite (h : s.visits q j stack = some seen) (k : ℕ) :
    s.visits q k stack = if seen.length ≤ k then some seen else none := by
  induction j generalizing stack seen k with
  | zero =>
    cases stack with
    | nil =>
      cases h
      cases k <;> rfl
    | cons n stack => cases h
  | succ j ih =>
    cases stack with
    | nil =>
      cases h
      cases k <;> rfl
    | cons n stack =>
      cases k with
      | zero =>
        rw [if_neg (Nat.not_le.mpr (length_pos_of_visits h))]
        rfl
      | succ k =>
        rw [visits] at h ⊢
        split at h
        next hn =>
          cases h
          rw [if_pos hn, if_pos (by simp)]
        next hn =>
          obtain ⟨rest,hrest,rfl⟩ := Option.map_eq_some_iff.mp h
          rw [if_neg hn, ih hrest k]
          simp only [List.length_cons, Nat.add_le_add_iff_right]
          split <;> rfl

/-- What waits when the search begins is what lies below the node. -/
theorem mem_waiting_children (ha : s.Acyclic) :
    m ∈ s.waiting (s.read n).children ↔ s.Below n m := by
  rw [waiting, List.mem_flatMap, below_iff]
  refine exists_congr fun c => and_congr_right fun _ => ?_
  obtain ⟨u,hu⟩ := exists_tree? ha c
  exact mem_preorder hu

theorem Sound.nodup_waiting_children (hs : s.Sound) (ha : s.Acyclic) (n : NodeId) :
    (s.waiting (s.read n).children).Nodup := by
  obtain ⟨w,hw⟩ := exists_tree? ha n
  have hnodup : (s.preorder n).Nodup := hs.nodup_family ha hw
  rw [preorder_eq ha] at hnodup
  exact (List.nodup_cons.mp hnodup).2

theorem Sound.length_waiting_children (hs : s.Sound) (ha : s.Acyclic) (hw : s.tree? n = some w) :
    1 + (s.waiting (s.read n).children).length = w.size := by
  have hlength : (s.preorder n).length = w.size := hs.length_family hw
  rw [preorder_eq ha, List.length_cons] at hlength
  rw [Nat.add_comm]
  exact hlength

theorem Sound.encard_below (hs : s.Sound) (ha : s.Acyclic) (hw : s.tree? n = some w) :
    1 + {m | s.Below n m}.encard = w.size := by
  have hset : {m | s.Below n m} = (s.waiting (s.read n).children).toFinset := by
    ext m
    simp only [Set.mem_ofPred_eq, List.coe_toFinset, mem_waiting_children ha]
  rw [hset, Set.encard_coe_eq_coe_finsetCard,
    List.toFinset_card_of_nodup (hs.nodup_waiting_children ha n),
    ← hs.length_waiting_children ha hw]
  norm_cast

/-- The bound of the search, the number of nodes in use, is not exceeded. -/
theorem Sound.length_waiting_le (hs : s.Sound) (ha : s.Acyclic) (n : NodeId) :
    (s.waiting (s.read n).children).length ≤ s.size :=
  length_le_size (hs.nodup_waiting_children ha n) fun _ hm =>
    hs.mem_of_below ((mem_waiting_children ha).mp hm)

/-- `seen` are the nodes that a search for `q` below `n` looks at, one after another: each of them
lies below `n`, none comes twice, and if `q` is not among them they are all that lie there. The
search takes a step for each of them and no more. -/
structure Searched (s : Store) (n q : NodeId) (seen : List NodeId) : Prop where
  steps : ∀ k, s.visits q k (s.read n).children.reverse =
    if seen.length ≤ k then some seen else none
  nodup : seen.Nodup
  below : ∀ m ∈ seen, s.Below n m
  all : q ∉ seen → ∀ m, s.Below n m → m ∈ seen

theorem Sound.exists_searched (hs : s.Sound) (ha : s.Acyclic) (n q : NodeId) :
    ∃ seen, s.search n q = some seen ∧ s.Searched n q seen := by
  have hperm := s.waiting_reverse (s.read n).children
  have hk : (s.waiting (s.read n).children.reverse).length ≤ s.size + 1 := by
    rw [hperm.length_eq]
    exact (hs.length_waiting_le ha n).trans (Nat.le_succ _)
  obtain ⟨seen,rest,hseen,hsplit,hrest⟩ := exists_visits (q := q) ha hk
  have hall : (s.waiting (s.read n).children).Perm (seen ++ rest) := hperm.symm.trans hsplit
  have hnodup := hall.nodup_iff.mp (hs.nodup_waiting_children ha n)
  refine ⟨seen,hseen,visits_eq_ite hseen,(List.nodup_append.mp hnodup).1,fun m hm => ?_,
    fun hq m hb => ?_⟩
  · exact (mem_waiting_children ha).mp (hall.mem_iff.mpr (List.mem_append_left rest hm))
  · have hm := hall.mem_iff.mp ((mem_waiting_children ha).mpr hb)
    rwa [hrest hq, List.append_nil] at hm

theorem Sound.reaches_eq_true_iff (hs : s.Sound) (ha : s.Acyclic) :
    s.reaches n q = .ok true ↔ s.Below n q := by
  refine ⟨fun h => (reaches_eq_ok h).mp rfl,fun hb => ?_⟩
  obtain ⟨b,h⟩ := hs.reaches_isOk ha n q
  rw [h, (reaches_eq_ok h).mpr hb]

theorem Sound.reaches_eq_false_iff (hs : s.Sound) (ha : s.Acyclic) :
    s.reaches n q = .ok false ↔ ¬ s.Below n q := by
  refine ⟨fun h hb => ?_,hs.reaches_eq_false ha⟩
  exact Bool.false_ne_true ((reaches_eq_ok h).mpr hb)

end Store

/-- In a forest the search below a node ends, without looking at any node twice. It finds exactly the
nodes strictly below, whatever is taken apart there, and never the node itself. If nothing is taken
apart, the size of the statement is one more than the number of nodes that can be found. -/
theorem search_finds_below {allowed : Store → Command → Prop} (h : Reachable allowed s)
    (hf : s.Forest) (n q : NodeId) :
    (∃ seen, s.search n q = some seen ∧ s.Searched n q seen) ∧
      (s.reaches n q = .ok true ↔ s.Below n q) ∧ (s.reaches n q = .ok false ↔ ¬ s.Below n q) ∧
      s.reaches n n = .ok false ∧
      (s.Intact n → ∃ k : ℕ, Statement.size n s = .ok k s ∧
        k = 1 + {m | s.reaches n m = .ok true}.encard) := by
  have hs := h.sound
  have ha := hf.acyclic
  refine ⟨hs.exists_searched ha n q,hs.reaches_eq_true_iff ha,hs.reaches_eq_false_iff ha,
    hs.reaches_eq_false ha (ha n),fun hi => ?_⟩
  obtain ⟨w,hw⟩ := exists_tree? ha n
  have hholds := holds_of_tree? hw
  refine ⟨w.size,StoreM.ask_of_ok ?_,?_⟩
  · rw [hs.sizeOf_eq hholds, Tree.inFull, (hs.intact_iff hholds).mp hi]
  · simp only [hs.reaches_eq_true_iff ha]
    exact (hs.encard_below ha hw).symm

/-- The call at the bottom is found although it is taken apart. -/
theorem search_finds_below_stranded :
    (∃ seen, stranded.search ⟨5⟩ ⟨2⟩ = some seen ∧ stranded.Searched ⟨5⟩ ⟨2⟩ seen) ∧
      stranded.reaches ⟨5⟩ ⟨2⟩ = .ok true ∧ stranded.reaches ⟨5⟩ ⟨5⟩ = .ok false ∧
      ∃ k : ℕ, Statement.size ⟨5⟩ wrapped = .ok k wrapped ∧
        k = 1 + {m | wrapped.reaches ⟨5⟩ m = .ok true}.encard := by
  obtain ⟨hseen,hfound,_,hself,_⟩ := search_finds_below reachable_stranded forest_stranded ⟨5⟩ ⟨2⟩
  have hchoice : stranded.Child ⟨5⟩ ⟨6⟩ := List.mem_singleton_self _
  have hbody : stranded.Child ⟨6⟩ ⟨4⟩ := List.mem_singleton_self _
  have hcall : stranded.Child ⟨4⟩ ⟨2⟩ := List.mem_singleton_self _
  have hsize := (search_finds_below reachable_wrapped forest_wrapped ⟨5⟩ ⟨2⟩).2.2.2.2
  exact ⟨hseen,hfound.mpr (hchoice.below.trans (hbody.below.trans hcall.below)),hself,
    hsize intact_wrapped.1⟩

end RobotCode
