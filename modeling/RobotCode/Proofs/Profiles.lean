import RobotCode.Proofs.Recount
import RobotCode.Proofs.Views

/-! # Profiles and rows of values

The profile of a statement and its row in a table are those of its value, unless something in it is
taken apart. To make the row the statement is counted by taking it apart.
-/
namespace RobotCode
open Store
open List (Forall₂)
variable {s t : Store} {n : NodeId} {w : Tree} {ts : List Tree} {d : ℕ}

namespace Profile

theorem count_foldl_tick (ps : List Primitive) (f : Profile) (p : Primitive) :
    (ps.foldl tick f).count p = f.count p + ps.count p := by
  induction ps generalizing f with
  | nil => rfl
  | cons q ps ih =>
    rw [List.foldl_cons, ih, count_tick, List.count_cons, Nat.add_assoc, Nat.add_comm (ps.count p)]
    simp only [beq_iff_eq]

theorem vector_ofPrimitives (ps : List Primitive) :
    (ofPrimitives ps).vector = Primitive.all.map fun p => ps.count p := by
  refine List.map_congr_left fun p _ => ?_
  rw [ofPrimitives, count_foldl_tick]
  exact Nat.zero_add _

end Profile

/-- A call has no children, so that its name can be entered first for every label. -/
theorem Store.Sound.profileWithin_succ (hs : s.Sound) (h : (s.read n).label.awaited? = none)
    (f : Profile) : s.profileWithin (d + 1) f n =
      (s.read n).children.foldlM (s.profileWithin d)
        ((s.read n).label.primitives.foldl Profile.tick f) := by
  conv_lhs => unfold profileWithin
  rw [assembled_of_none h]
  have hn := hs.shaped n
  cases hv : s.read n with
  | mk l cs =>
    rw [hv] at hn
    cases l with
    | call name =>
      obtain rfl : cs = [] := hn
      cases hname : Primitive.ofName? name <;>
        simp [Label.primitives, hname, bind, Except.bind]
    | _ => rfl

/-- The profile of a statement is that of its value, unless something in it is taken apart. -/
theorem Store.Sound.profileWithin_eq (hs : s.Sound) (h : s.treeWithin? d n = some w)
    (f : Profile) : s.profileWithin d f n = w.inFull (w.primitives.foldl Profile.tick f) := by
  induction d generalizing n w f with
  | zero => simp [treeWithin?] at h
  | succ d ih =>
    obtain ⟨hl,hts⟩ := hs.of_treeWithin? h
    rw [Tree.inFull, Tree.firstPending?_eq, ← hl]
    cases hp : (s.read n).label.awaited? with
    | some k =>
      unfold profileWithin
      rw [assembled_of_some hp]
      rfl
    | none =>
      rw [hs.profileWithin_succ hp, foldlM_inFull (hts.imp fun _ _ hc f => ih hc f),
        w.primitives_eq, List.foldl_append, List.foldl_flatMap, hl]
      rfl

theorem Store.Sound.profile_eq (hs : s.Sound) (h : s.Holds n w) :
    s.profile n = w.inFull (Profile.ofPrimitives w.primitives) :=
  hs.profileWithin_eq h.tree? []

/-- The row of a value. -/
def Tree.row (name : String) (w : Tree) : Row :=
  ⟨name,Primitive.all.map fun p => w.primitives.count p,w.primitives.length,w.size⟩

/-- The row of a statement in which nothing is taken apart is that of its value. -/
theorem row_of_holds (hs : s.Sound) (ha : s.Acyclic) (hn : n ∈ s) (hw : s.Holds n w)
    (hp : w.firstPending? = none) (name : String) :
    ∃ t, Row.of name (.statement n) s = .ok (w.row name) t ∧ Tally.Recounted s n w t := by
  have hfull : ∀ {α : Type} (a : α), w.inFull a = .ok a := fun a => by rw [Tree.inFull, hp]
  obtain ⟨t,ht,hre⟩ := Tally.count_of_holds hs ha hn hw hp
  refine ⟨t,?_,hre⟩
  have hprofile : Profile.of (.statement n) s = .ok (Profile.ofPrimitives w.primitives) s :=
    StoreM.ask_of_ok ((hs.profile_eq hw).trans (hfull _))
  have hsize := (hre.edits.sound hs).sizeOf_eq hre.holds
  rw [hfull] at hsize
  unfold Row.of
  rw [bind_of_ok hprofile, bind_of_ok ht, bind_of_ok (StoreM.ask_of_ok hsize),
    Profile.vector_ofPrimitives]
  rfl

end RobotCode
