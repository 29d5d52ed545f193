import Mathlib.Algebra.Order.BigOperators.Group.List
import RobotCode.Proofs.Measures
import RobotCode.Proofs.Occurrences
import RobotCode.Proofs.Tabulation

/-! # Tables of differently named statements

If all names are different, a table has a row for every entry or fails. It fails if anything in one
of the statements is taken apart, and then some of them may have been counted already. Either way a
node that was whole is so afterwards, and a statement that is not inside another one of the list has
kept its value.
-/
namespace RobotCode
open Store Tally
open List (Forall₂)
variable {s t u : Store} {m n : NodeId} {w : Tree} {done : List NodeId} {k : Kind}
  {programs : List (String × NodeId)}

namespace Tree
variable {f g : Tree → ℕ}

/-- Of two additive measures one is never above the other if it is not so for a single node. -/
theorem Additive.le (hf : Additive f) (hg : Additive g)
    (h : ∀ l : Label, f (l.tree []) ≤ g (l.tree [])) (t : Tree) : f t ≤ g t := by
  have hstep : ∀ t : Tree, (∀ p ∈ t.parts, f p ≤ g p) → f t ≤ g t := by
    intro t hp
    rw [hf t, hg t]
    exact Nat.add_le_add (h _) (List.sum_le_sum hp)
  induction t using Tree.induction with
  | block ts ih => exact hstep _ ih
  | guarded g c ts ih => exact hstep _ ih
  | call name => exact hstep _ (by simp [parts])
  | pending k => exact hstep _ (by simp [parts])

theorem length_primitives_le_size (t : Tree) : t.primitives.length ≤ t.size := by
  refine additive_length_primitives.le additive_size (fun l => ?_) t
  rw [primitives_tree_nil, size_eq, ← l.toList_primitive?]
  exact Option.length_toList_le.trans (Nat.le_add_right 1 _)

end Tree

/-- The calls to the primitives add up to the total, which is at most the number of nodes. The
density is the quotient of the two. -/
structure Row.AddsUp (r : Row) : Prop where
  length : r.vector.length = Primitive.all.length
  sum : r.vector.sum = r.total
  one_le : 1 ≤ r.nodes
  le : r.total ≤ r.nodes
  density : r.density.value = .ofRatio r.total r.nodes

theorem Tree.row_addsUp (w : Tree) (name : String) : (w.row name).AddsUp where
  length := List.length_map ..
  sum := by
    rw [row, ← Profile.vector_ofPrimitives]
    exact Profile.sum_vector_ofPrimitives _
  one_le := w.size_pos
  le := w.length_primitives_le_size
  density := rfl

section Entries
variable {κ α : Type} [DecidableEq κ] {es ps : List (κ × α)} {key : κ}

theorem enter_of_not_mem (h : key ∉ es.map Prod.fst) (a : α) :
    enter es key a = es ++ [(key,a)] := by
  induction es with
  | nil => rfl
  | cons e es ih =>
    rw [enter, if_neg (List.ne_of_not_mem_cons h).symm, ih (List.not_mem_of_not_mem_cons h),
      List.cons_append]

theorem entries_of_nodup (h : (ps.map Prod.fst).Nodup) : entries ps = ps := by
  unfold entries
  suffices hfold : ∀ es : List (κ × α), ((es ++ ps).map Prod.fst).Nodup →
      ps.foldl (fun es p => enter es p.1 p.2) es = es ++ ps from hfold [] h
  clear h
  induction ps with
  | nil => simp
  | cons p ps ih =>
    intro es hes
    have hp : p.1 ∉ es.map Prod.fst := by
      intro hmem
      rw [List.map_append, List.map_cons] at hes
      exact (List.nodup_append.mp hes).2.2 _ hmem _ (List.mem_cons_self ..) rfl
    rw [List.append_cons] at hes
    rw [List.foldl_cons, enter_of_not_mem hp, ih _ hes, ← List.append_cons]

end Entries

namespace Surveyed

theorem label_eq (h : Surveyed s done t) (hs : s.Sound) (ha : s.Acyclic) (hm : m ∈ s)
    (hd : ∀ d ∈ done, ¬ s.Below d m) : (t.read m).label = (s.read m).label := by
  obtain ⟨w,hw⟩ := exists_holds ha m
  rw [((h.edits.sound hs).of_holds (h.holds hm hd hw)).1, (hs.of_holds hw).1]

/-- A node that was whole still is: if it was below a statement that has been counted it is an empty
block now, and otherwise it has kept its label. -/
theorem awaited?_eq_none (h : Surveyed s done t) (hs : s.Sound) (ha : s.Acyclic) (hm : m ∈ s)
    (hl : (s.read m).label.awaited? = none) : (t.read m).label.awaited? = none := by
  by_cases hd : ∃ d ∈ done, s.Below d m
  · rw [h.cleared m hd]
    rfl
  · rwa [h.label_eq hs ha hm fun d hdone hb => hd ⟨d,hdone,hb⟩]

theorem tree?_eq (h : Surveyed s done t) (ha : s.Acyclic) (hn : n ∈ s)
    (hd : ∀ d ∈ done, ¬ s.Below d n) : t.tree? n = s.tree? n := by
  obtain ⟨w,hw⟩ := exists_holds ha n
  rw [hw.tree?, (h.holds hn hd hw).tree?]

end Surveyed

namespace Store

/-- No node that was whole is taken apart in `t`, and each of the statements that is not strictly
inside another one of them has its value. -/
structure Spares (s : Store) (ns : List NodeId) (t : Store) : Prop where
  whole : ∀ m ∈ s, (s.read m).label.awaited? = none → (t.read m).label.awaited? = none
  value : ∀ n ∈ ns, (∀ d ∈ ns, ¬ s.Below d n) → t.tree? n = s.tree? n

end Store

theorem Surveyed.spares {ns : List NodeId} (h : Surveyed s done t) (hs : s.Sound) (ha : s.Acyclic)
    (hn : ∀ n ∈ ns, n ∈ s) (hd : done ⊆ ns) : s.Spares ns t where
  whole _ := h.awaited?_eq_none hs ha
  value n hmem hnone := h.tree?_eq ha (hn n hmem) fun d hdone => hnone d (hd hdone)

/-- The profile comes before the count, so that a row that fails changes nothing. -/
theorem row_of_pending (hs : s.Sound) (hw : s.Holds n w) (hp : w.firstPending? = some k)
    (name : String) :
    Row.of name (.statement n) s = .error (.violation (.disassembled k)) s := by
  have hprofile : Profile.of (.statement n) s = .error (.violation (.disassembled k)) s := by
    refine StoreM.ask_of_error ((hs.profile_eq hw).trans ?_)
    rw [Tree.inFull, hp]
  unfold Row.of
  exact bind_of_error hprofile

namespace Surveyed

/-- If anything is taken apart in some statement, the rows get as far as the first such statement.
-/
theorem rows_of_pending (h : Surveyed s done t) (hs : s.Sound) (ha : s.Acyclic)
    (hd : ∀ d ∈ done, s.Intact d) (hm : ∀ p ∈ programs, p.2 ∈ s)
    (hp : ∃ p ∈ programs, ¬ s.Intact p.2) :
    ∃ k u counted, programs.mapM (fun p => Row.of p.1 (.statement p.2)) t =
        .error (.violation (.disassembled k)) u ∧
      counted <+: programs.map Prod.snd ∧ Surveyed s (done ++ counted) u := by
  induction programs generalizing done t with
  | nil => simp at hp
  | cons p programs ih =>
    obtain ⟨hn,hms⟩ := List.forall_mem_cons.mp hm
    rw [List.mapM_cons]
    by_cases hi : s.Intact p.2
    · obtain ⟨w,hw⟩ := exists_finds ha done p.2
      have hwt := h.holds_of_finds hn hw
      obtain ⟨u,hu,hre⟩ := row_of_holds (h.edits.sound hs) (h.edits.acyclic ha) (h.edits.mem hn)
        hwt (firstPending?_of_finds hs hi hw) p.1
      have hdone : ∀ d ∈ done ++ [p.2], s.Intact d :=
        List.forall_mem_append.mpr ⟨hd,List.forall_mem_singleton.mpr hi⟩
      have hrest : ∃ q ∈ programs, ¬ s.Intact q.2 := by
        obtain ⟨q,hq,hnot⟩ := hp
        rcases List.mem_cons.mp hq with rfl | hq
        · exact absurd hi hnot
        · exact ⟨q,hq,hnot⟩
      obtain ⟨k,v,counted,hv,hpre,hsurvey⟩ := ih (h.step hs ha hwt hre) hdone hms hrest
      refine ⟨k,v,p.2 :: counted,?_,(List.prefix_cons_inj _).mpr hpre,by simpa using hsurvey⟩
      rw [bind_of_ok hu, bind_of_error hv]
    · obtain ⟨w,hw⟩ := exists_holds ha p.2
      have hnone : ∀ d ∈ done, ¬ s.Below d p.2 := fun d hdone hb =>
        hi ((hd d hdone).of_within hb.within)
      obtain ⟨k,hk⟩ := Option.ne_none_iff_exists'.mp ((hs.intact_iff hw).not.mp hi)
      have hrow := row_of_pending (h.edits.sound hs) (h.holds hn hnone hw) hk p.1
      exact ⟨k,t,[],bind_of_error hrow,List.nil_prefix,by simpa using h⟩

end Surveyed

theorem forall₂_of_split {α β : Type} {R : α → β → Prop} {xs : List α} {ys : List β}
    (hlen : ys.length = xs.length)
    (h : ∀ pre x post, xs = pre ++ x :: post → ∃ y, ys[pre.length]? = some y ∧ R x y) :
    Forall₂ R xs ys := by
  refine List.forall₂_iff_get.mpr ⟨hlen.symm,fun i hi hj => ?_⟩
  have hsplit : xs = xs.take i ++ xs[i] :: xs.drop (i + 1) := by
    rw [List.getElem_cons_drop, List.take_append_drop]
  obtain ⟨y,hy,hr⟩ := h _ _ _ hsplit
  rw [List.length_take_of_le (Nat.le_of_lt hi), List.getElem?_eq_getElem hj] at hy
  obtain rfl := Option.some.inj hy
  exact hr

/-- In a forest, a table of differently named statements fails exactly if anything in one of them is
taken apart. Otherwise it has a row for every entry in their order, whose numbers go together: it is
the row of a value, and of that of the statement if this is not strictly inside another one of the
list. In both cases no node that was whole is taken apart, and the statements that are not inside
others of the list keep their values. -/
theorem table_of_distinct_names {allowed : Store → Command → Prop} (h : Reachable allowed s)
    (hf : s.Forest) (hnames : (programs.map Prod.fst).Nodup) (hp : ∀ p ∈ programs, p.2 ∈ s) :
    ((∀ p ∈ programs, s.Intact p.2) → ∃ table t,
      Table.of (programs.map fun p => (p.1,.statement p.2)) s = .ok table t ∧
      table.map Row.name = programs.map Prod.fst ∧ (∀ r ∈ table, r.AddsUp) ∧
      Forall₂ (fun p r => ∃ w : Tree, r = w.row p.1 ∧
        ((∀ q ∈ programs, ¬ s.Below q.2 p.2) → s.tree? p.2 = some w)) programs table ∧
      s.Spares (programs.map Prod.snd) t) ∧
    ((∃ p ∈ programs, ¬ s.Intact p.2) → ∃ k t,
      Table.of (programs.map fun p => (p.1,.statement p.2)) s =
        .error (.violation (.disassembled k)) t ∧
      s.Spares (programs.map Prod.snd) t) := by
  have hs := h.sound
  have ha := hf.acyclic
  have hrun : Table.of (programs.map fun p => (p.1,.statement p.2)) =
      programs.mapM fun p => Row.of p.1 (.statement p.2) := by
    unfold Table.of
    rw [entries_map, entries_of_nodup hnames, List.mapM_map]
    rfl
  have hmem : ∀ n ∈ programs.map Prod.snd, n ∈ s := List.forall_mem_map.mpr hp
  rw [hrun]
  refine ⟨fun hi => ?_,fun hnot => ?_⟩
  · obtain ⟨table,t,ht,hsurvey,hlen,hrows⟩ :=
      (Surveyed.refl s).rows hs ha fun p hmem => ⟨hp p hmem,hi p hmem⟩
    have hall : Forall₂ (fun p r => ∃ w : Tree, r = w.row p.1 ∧
        ((∀ q ∈ programs, ¬ s.Below q.2 p.2) → s.tree? p.2 = some w)) programs table := by
      refine forall₂_of_split hlen fun pre p post e => ?_
      obtain ⟨w,hw,hrow⟩ := hrows pre p.1 p.2 post e
      refine ⟨_,hrow,w,rfl,fun hnone => ?_⟩
      rcases hw with ⟨_,hholds⟩ | ⟨⟨d,hd,hb⟩,_⟩
      · exact hholds.tree?
      · obtain ⟨q,hq,rfl⟩ := List.mem_map.mp hd
        exact absurd hb (hnone q (e ▸ List.mem_append_left _ hq))
    refine ⟨table,t,ht,?_,fun r hr => ?_,hall,
      hsurvey.spares hs ha hmem fun n hn => by simpa using hn⟩
    · have hsame : Forall₂ (· = ·) (programs.map Prod.fst) (table.map Row.name) := by
        rw [List.forall₂_map_left_iff, List.forall₂_map_right_iff]
        refine hall.imp fun p r hr => ?_
        obtain ⟨w,rfl,_⟩ := hr
        rfl
      exact (List.forall₂_eq_eq_eq ▸ hsame).symm
    · obtain ⟨p,_,w,rfl,_⟩ := exists_of_forall₂ hall.flip hr
      exact w.row_addsUp p.1
  · obtain ⟨k,t,counted,ht,hpre,hsurvey⟩ :=
      (Surveyed.refl s).rows_of_pending hs ha (by simp) hp hnot
    exact ⟨k,t,ht,hsurvey.spares hs ha hmem hpre.subset⟩

/-- The block, then the choice in it and the block again; and the block after something whole when
the call at the bottom is taken apart. -/
theorem table_of_distinct_names_wrapped :
    (∃ table t,
      Table.of [("outer",.statement ⟨5⟩),("inner",.statement ⟨6⟩),("again",.statement ⟨5⟩)]
        wrapped = .ok table t ∧
      table.map Row.name = ["outer","inner","again"] ∧ (∀ r ∈ table, r.AddsUp) ∧
      Forall₂ (fun p r => ∃ w : Tree, r = w.row p.1 ∧
          ((∀ q ∈ [("outer",⟨5⟩),("inner",⟨6⟩),("again",⟨5⟩)], ¬ wrapped.Below q.2 p.2) →
            wrapped.tree? p.2 = some w))
        [("outer",⟨5⟩),("inner",⟨6⟩),("again",⟨5⟩)] table ∧
      wrapped.Spares [⟨5⟩,⟨6⟩,⟨5⟩] t) ∧
    ∃ k t, Table.of [("nothing",.statement ⟨0⟩),("outer",.statement ⟨5⟩)] stranded =
        .error (.violation (.disassembled k)) t ∧
      stranded.Spares [⟨0⟩,⟨5⟩] t := by
  have hwrapped : ∀ p ∈ [("outer",(⟨5⟩ : NodeId)),("inner",⟨6⟩),("again",⟨5⟩)], p.2 ∈ wrapped := by
    decide
  have hstranded : ∀ p ∈ [("nothing",(⟨0⟩ : NodeId)),("outer",⟨5⟩)], p.2 ∈ stranded := by decide
  obtain ⟨houter,hinner⟩ := intact_wrapped
  refine ⟨(table_of_distinct_names reachable_wrapped forest_wrapped (by decide) hwrapped).1 ?_,
    (table_of_distinct_names reachable_stranded forest_stranded (by decide) hstranded).2 ?_⟩
  · simp only [List.forall_mem_cons]
    exact ⟨houter,hinner,houter,by simp⟩
  · exact ⟨_,List.mem_cons_of_mem _ (List.mem_singleton_self _),not_intact_stranded⟩

end RobotCode
