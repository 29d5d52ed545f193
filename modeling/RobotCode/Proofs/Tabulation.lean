import RobotCode.Proofs.Profiles
import RobotCode.Proofs.Renewal

/-! # Tables of statements that overlap

A row is made by counting its statement, which puts new nodes in place of those below it. The
statement keeps its value, and so does all that holds it; a node that was strictly below it is left
an empty block. A table is a run of such counts.
-/
namespace RobotCode
open Store Tally
variable {s t u : Store} {a b c m n p : NodeId} {w : Tree} {done : List NodeId}

/-- What counting the statements of `done` has done to the store. -/
structure Surveyed (s : Store) (done : List NodeId) (t : Store) : Prop where
  edits : Edits True s t
  kept : ∀ m ∈ s, (∀ d ∈ done, ¬ s.Within d m) → t.read m = s.read m
  cleared : ∀ m, (∃ d ∈ done, s.Below d m) → t.read m = {}
  child : ∀ {p c}, c ∈ s → t.Child p c → s.Child p c
  holds : ∀ {m w}, m ∈ s → (∀ d ∈ done, ¬ s.Below d m) → s.Holds m w → t.Holds m w

namespace Surveyed

theorem refl (s : Store) : Surveyed s [] s where
  edits := .refl
  kept _ _ _ := rfl
  cleared _ h := by simp at h
  child _ h := h
  holds _ _ h := h

/-- No old node comes to lie below another one. -/
theorem below (h : Surveyed s done t) (hm : m ∈ s) (hb : t.Below n m) :
    s.Below n m := by
  induction hb with
  | single hc => exact (h.child hm hc).below
  | tail hb hc ih =>
    have hold := h.child hm hc
    exact (ih hold.mem).trans hold.below

/-- A node below an uncounted statement is still there if it is not below a counted one. -/
theorem below_of_not_below (h : Surveyed s done t) (hb : s.Below n m)
    (hm : ∀ d ∈ done, ¬ s.Below d m) : t.Below n m :=
  hb.of_kept fun _ _ hbm => h.kept _ hbm.mem fun d hd hw => hm d hd (hw.below hbm)

theorem cleared_step (h : Surveyed s done t) (hs : s.Sound) (ha : s.Acyclic) (hw : t.Holds n w)
    (hre : Recounted t n w u) (hm : m ∈ s) (hempty : t.read m = {}) : u.read m = {} := by
  have hmt := h.edits.mem hm
  by_cases hwithin : t.Within n m
  · rcases within_iff.mp hwithin with rfl | hb
    · obtain rfl := hw.unique (holds_of_empty hempty)
      exact (hre.edits.sound (h.edits.sound hs)).read_of_holds_empty hre.holds
    · exact hre.cleared (h.edits.acyclic ha) hb hmt
  · rw [hre.kept hmt hwithin, hempty]

theorem step (h : Surveyed s done t) (hs : s.Sound) (ha : s.Acyclic) (hw : t.Holds n w)
    (hre : Recounted t n w u) : Surveyed s (done ++ [n]) u where
  edits := h.edits.trans hre.edits
  kept m hm hd := by
    simp only [List.mem_append, List.mem_singleton, or_imp, forall_and, forall_eq] at hd
    have hnot : ¬ t.Within n m := by
      intro hwithin
      rcases within_iff.mp hwithin with rfl | hb
      · exact hd.2 (within_refl s m)
      · exact hd.2 (h.below hm hb).within
    rw [hre.kept (h.edits.mem hm) hnot, h.kept m hm hd.1]
  cleared m hd := by
    obtain ⟨d,hd,hb⟩ := hd
    have hm := hs.mem_of_below hb
    by_cases hold : ∃ d ∈ done, s.Below d m
    · exact h.cleared_step hs ha hw hre hm (h.cleared m hold)
    · have hnone : ∀ d ∈ done, ¬ s.Below d m := fun d hd hb => hold ⟨d,hd,hb⟩
      rcases List.mem_append.mp hd with hd | hd
      · exact absurd hb (hnone d hd)
      · obtain rfl := List.mem_singleton.mp hd
        exact hre.cleared (h.edits.acyclic ha) (h.below_of_not_below hb hnone) (h.edits.mem hm)
  child hc hp := h.child hc (hre.child_of_mem (h.edits.mem hc) hp).2
  holds {m v} hm hd hv := by
    simp only [List.mem_append, List.mem_singleton, or_imp, forall_and, forall_eq] at hd
    have hkeep : ∀ v, t.Holds n v → u.Holds n v := fun v hv => hv.unique hw ▸ hre.holds
    exact (h.edits.sound hs).holds_of_replaced (fun _ => hre.kept) hkeep (h.holds hm hd.1 hv)
      (h.edits.mem hm) fun hb => hd.2 (h.below hm hb)

end Surveyed

/-- What a count of `n` finds after those of `done`: the value of `n`, but an empty block if one of
them lies strictly above it. -/
def Finds (s : Store) (done : List NodeId) (n : NodeId) (w : Tree) : Prop :=
  (∀ d ∈ done, ¬ s.Below d n) ∧ s.Holds n w ∨ (∃ d ∈ done, s.Below d n) ∧ w = .block []

theorem exists_finds (ha : s.Acyclic) (done : List NodeId) (n : NodeId) :
    ∃ w, Finds s done n w := by
  by_cases h : ∃ d ∈ done, s.Below d n
  · exact ⟨_,Or.inr ⟨h,rfl⟩⟩
  · obtain ⟨w,hw⟩ := exists_holds ha n
    exact ⟨w,Or.inl ⟨fun d hd hb => h ⟨d,hd,hb⟩,hw⟩⟩

namespace Surveyed

theorem holds_of_finds (h : Surveyed s done t) (hn : n ∈ s) (hw : Finds s done n w) :
    t.Holds n w := by
  rcases hw with ⟨hd,hw⟩ | ⟨hd,rfl⟩
  · exact h.holds hn hd hw
  · exact holds_of_empty (h.cleared n hd)

theorem firstPending?_of_finds (hs : s.Sound) (hi : s.Intact n) (hw : Finds s done n w) :
    w.firstPending? = none := by
  rcases hw with ⟨_,hw⟩ | ⟨_,rfl⟩
  · exact (hs.intact_iff hw).mp hi
  · rfl

/-- The rows of a list of statements, one after another, and what they leave. -/
theorem rows (h : Surveyed s done t) (hs : s.Sound) (ha : s.Acyclic)
    {programs : List (String × NodeId)} (hp : ∀ p ∈ programs, p.2 ∈ s ∧ s.Intact p.2) :
    ∃ table u, programs.mapM (fun p => Row.of p.1 (.statement p.2)) t = .ok table u ∧
      Surveyed s (done ++ programs.map Prod.snd) u ∧ table.length = programs.length ∧
      ∀ before name n after, programs = before ++ (name,n) :: after → ∃ w,
        Finds s (done ++ before.map Prod.snd) n w ∧ table[before.length]? = some (w.row name) := by
  induction programs generalizing done t with
  | nil => exact ⟨[],t,rfl,by simpa using h,rfl,by simp⟩
  | cons p programs ih =>
    obtain ⟨⟨hn,hi⟩,hps⟩ := List.forall_mem_cons.mp hp
    obtain ⟨w,hw⟩ := exists_finds ha done p.2
    have hwt := h.holds_of_finds hn hw
    obtain ⟨u,hu,hre⟩ := row_of_holds (h.edits.sound hs) (h.edits.acyclic ha) (h.edits.mem hn) hwt
      (firstPending?_of_finds hs hi hw) p.1
    obtain ⟨table,v,hv,hsurvey,hlen,hrows⟩ := ih (h.step hs ha hwt hre) hps
    refine ⟨w.row p.1 :: table,v,?_,?_,congrArg (· + 1) hlen,?_⟩
    · rw [List.mapM_cons, bind_of_ok hu, bind_of_ok hv]
      rfl
    · simpa using hsurvey
    · rintro (_ | ⟨q,before⟩) name n after e
      · obtain ⟨rfl,rfl⟩ := List.cons.inj e
        exact ⟨w,by simpa using hw,rfl⟩
      · obtain ⟨rfl,rfl⟩ := List.cons.inj e
        obtain ⟨w',hw',hrow⟩ := hrows before name n after rfl
        exact ⟨w',by simpa using hw',by simpa using hrow⟩

end Surveyed

section Entries
variable {κ α β : Type} [DecidableEq κ] (f : α → β)

theorem enter_map (es : List (κ × α)) (key : κ) (a : α) :
    enter (es.map fun p => (p.1,f p.2)) key (f a) = (enter es key a).map fun p => (p.1,f p.2) := by
  induction es with
  | nil => rfl
  | cons e es ih =>
    rw [List.map_cons, enter, enter]
    split
    next => rfl
    next => rw [ih, List.map_cons]

theorem entries_map (ps : List (κ × α)) :
    entries (ps.map fun p => (p.1,f p.2)) = (entries ps).map fun p => (p.1,f p.2) := by
  unfold entries
  suffices h : ∀ es : List (κ × α),
      (ps.map fun p => (p.1,f p.2)).foldl (fun es p => enter es p.1 p.2)
          (es.map fun p => (p.1,f p.2)) =
        (ps.foldl (fun es p => enter es p.1 p.2) es).map fun p => (p.1,f p.2) from h []
  induction ps with
  | nil => exact fun _ => rfl
  | cons p ps ih =>
    intro es
    rw [List.map_cons, List.foldl_cons, List.foldl_cons, enter_map, ih]

end Entries

/-- In a forest, a table of statements in which nothing is taken apart has a row for every entry. It
is that of the value that the statement had before, unless an earlier entry is for a statement
strictly above it. Then it is the row of an empty block. -/
theorem rows_of_table {allowed : Store → Command → Prop} (h : Reachable allowed s) (hf : s.Forest)
    {programs : List (String × NodeId)}
    (hp : ∀ p ∈ entries programs, p.2 ∈ s ∧ s.Intact p.2) :
    ∃ table t, Table.of (programs.map fun p => (p.1,.statement p.2)) s = .ok table t ∧
      table.length = (entries programs).length ∧
      ∀ before name n after, entries programs = before ++ (name,n) :: after →
        ∃ w, s.tree? n = some w ∧
          ((∀ p ∈ before, ¬ s.Below p.2 n) → table[before.length]? = some (w.row name)) ∧
          ((∃ p ∈ before, s.Below p.2 n) →
            table[before.length]? = some ((Tree.block []).row name)) := by
  have hs := h.sound
  have ha := hf.acyclic
  obtain ⟨table,t,ht,_,hlen,hrows⟩ := (Surveyed.refl s).rows hs ha hp
  refine ⟨table,t,?_,hlen,fun before name n after e => ?_⟩
  · unfold Table.of
    rw [entries_map, List.mapM_map]
    exact ht
  · obtain ⟨v,hv,hrow⟩ := hrows before name n after e
    obtain ⟨w,hw⟩ := exists_holds ha n
    refine ⟨w,hw.tree?,fun hnone => ?_,fun habove => ?_⟩
    · rcases hv with ⟨_,hv⟩ | ⟨⟨d,hd,hb⟩,_⟩
      · rw [hrow, hv.unique hw]
      · obtain ⟨p,hp,rfl⟩ := List.mem_map.mp hd
        exact absurd hb (hnone p hp)
    · obtain ⟨p,hp,hb⟩ := habove
      rcases hv with ⟨hnone,_⟩ | ⟨_,rfl⟩
      · exact absurd hb (hnone p.2 (List.mem_map_of_mem hp))
      · exact hrow

/-- The choice is listed before the block that it is in, and again after it. -/
theorem rows_of_table_wrapped : ∃ table t,
    Table.of [("inner",.statement ⟨6⟩),("outer",.statement ⟨5⟩),("again",.statement ⟨6⟩)] wrapped =
      .ok table t ∧
    table[0]? = some ((Tree.guarded .ifThen .always [.block [.call "move"]]).row "inner") ∧
    table[1]? = some ((Tree.block [.guarded .ifThen .always [.block [.call "move"]]]).row "outer") ∧
    table[2]? = some ((Tree.block []).row "again") := by
  let programs : List (String × NodeId) := [("inner",⟨6⟩),("outer",⟨5⟩),("again",⟨6⟩)]
  have he : entries programs = programs := rfl
  have hp : ∀ p ∈ entries programs, p.2 ∈ wrapped ∧ wrapped.Intact p.2 := by
    intro p hp
    obtain ⟨houter,hinner⟩ := intact_wrapped
    obtain rfl | rfl | rfl : p = ("inner",⟨6⟩) ∨ p = ("outer",⟨5⟩) ∨ p = ("again",⟨6⟩) := by
      simpa [he, programs] using hp
    · exact ⟨by decide,hinner⟩
    · exact ⟨by decide,houter⟩
    · exact ⟨by decide,hinner⟩
  have hchild : wrapped.Child ⟨5⟩ ⟨6⟩ := List.mem_singleton_self _
  obtain ⟨table,t,ht,_,hrows⟩ := rows_of_table reachable_wrapped forest_wrapped hp
  obtain ⟨w,hw,hinner,_⟩ := hrows [] "inner" ⟨6⟩ _ he
  obtain ⟨v,hv,houter,_⟩ := hrows [("inner",⟨6⟩)] "outer" ⟨5⟩ _ he
  obtain ⟨_,_,_,hagain⟩ := hrows [("inner",⟨6⟩),("outer",⟨5⟩)] "again" ⟨6⟩ _ he
  cases hw
  cases hv
  refine ⟨table,t,ht,hinner (by simp),houter fun p hp hb => ?_,
    hagain ⟨_,.tail _ (.head _),hchild.below⟩⟩
  obtain rfl := List.mem_singleton.mp hp
  exact hchild.not_below forest_wrapped.acyclic hb

/-- The block comes first, and the row of the choice is that of an empty block. -/
theorem table_loses_nested : Reachable (fun s c => c.Tame s) wrapped ∧ wrapped.Forest ∧
    (∀ n ∈ [⟨5⟩,⟨6⟩], n ∈ wrapped ∧ wrapped.Intact n) ∧
    wrapped.tree? ⟨6⟩ = some (.guarded .ifThen .always [.block [.call "move"]]) ∧
    (Tree.guarded .ifThen .always [.block [.call "move"]]).row "inner" =
      ⟨"inner",[1,0,0,0,0],1,3⟩ ∧
    ∃ table t, Table.of [("outer",.statement ⟨5⟩),("inner",.statement ⟨6⟩)] wrapped =
        .ok table t ∧ table[1]? = some ⟨"inner",[0,0,0,0,0],0,1⟩ := by
  obtain ⟨houter,hinner⟩ := intact_wrapped
  have hs := reachable_wrapped.sound
  have hp : ∀ p ∈ [("outer",(⟨5⟩ : NodeId)),("inner",⟨6⟩)], p.2 ∈ wrapped ∧ wrapped.Intact p.2 := by
    simp only [List.forall_mem_cons]
    exact ⟨⟨by decide,houter⟩,⟨by decide,hinner⟩,by simp⟩
  have hchild : wrapped.Child ⟨5⟩ ⟨6⟩ := List.mem_singleton_self _
  obtain ⟨table,t,ht,_,_,hrows⟩ := (Surveyed.refl wrapped).rows hs forest_wrapped.acyclic hp
  obtain ⟨w,hw,hrow⟩ := hrows [("outer",⟨5⟩)] "inner" ⟨6⟩ [] rfl
  have hempty : w = .block [] := hw.elim
    (fun h => absurd hchild.below (h.1 ⟨5⟩ (List.mem_singleton_self _))) And.right
  refine ⟨reachable_wrapped,forest_wrapped,?_,rfl,by decide,table,t,ht,?_⟩
  · simp only [List.forall_mem_cons]
    exact ⟨⟨by decide,houter⟩,⟨by decide,hinner⟩,by simp⟩
  · rw [hempty] at hrow
    exact hrow

end RobotCode
