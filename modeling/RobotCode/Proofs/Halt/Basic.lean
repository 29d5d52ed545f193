import RobotCode.Proofs.Recount.Basic

/-! # Counts that halt

A count that comes to a statement taken apart fails, and what it has taken apart itself up to then
is not put together again. It gets there through the first child, at every node, below which
something is taken apart, or stops already at a statement with a body that is taken apart itself. Of
the statements on this way the guarded ones are left taken apart, save the last one and those that
were bodies of another one, since the state of a body has gone to a new block. A block is left
without the child.
-/
namespace RobotCode
open Store
open List (Forall₂)
variable {s t : Store} {b c m n o r : NodeId} {d : ℕ} {g : Guarded} {test : Condition}

namespace Store

/-- Nothing in the subtree of `n` is taken apart. -/
def Intact (s : Store) (n : NodeId) : Prop := ∀ m, s.Within n m → (s.read m).label.awaited? = none

theorem Sound.intact_iff {w : Tree} (hs : s.Sound) (h : s.Holds n w) :
    s.Intact n ↔ w.firstPending? = none := (hs.firstPending?_eq_none_iff h).symm

theorem Intact.of_within (h : s.Intact n) (hm : s.Within n m) : s.Intact m := fun k hk =>
  h k (hm.trans hk)

theorem Intact.of_child (h : s.Intact r) (hc : s.Child r c) : s.Intact c :=
  h.of_within hc.below.within

theorem Intact.congr (h : ∀ m, s.Within n m → t.read m = s.read m) :
    t.Intact n ↔ s.Intact n := by
  refine forall_congr' fun m => ?_
  rw [Within.congr h]
  refine forall_congr' fun hm => ?_
  rw [h m hm]

/-- `c` is the first child of `r` below which, or at which, something is taken apart. -/
def Stuck (s : Store) (r c : NodeId) : Prop :=
  ∃ pre post, (s.read r).children = pre ++ c :: post ∧ (∀ x ∈ pre, s.Intact x) ∧ ¬ s.Intact c

theorem Stuck.child (h : s.Stuck r c) : s.Child r c := by
  obtain ⟨pre,post,hr,_⟩ := h
  simp [Child, hr]

theorem Stuck.not_intact (h : s.Stuck r c) : ¬ s.Intact c := by
  obtain ⟨_,_,_,_,hc⟩ := h
  exact hc

theorem Stuck.unique (h : s.Stuck r b) (k : s.Stuck r c) : b = c := by
  classical
  have hfind : ∀ {x}, s.Stuck r x →
      (s.read r).children.find? (fun x => decide (¬ s.Intact x)) = some x := by
    rintro x ⟨pre,post,hr,hpre,hx⟩
    refine List.find?_eq_some_iff_append.mpr ⟨by simpa using hx,pre,post,hr,fun y hy => ?_⟩
    simpa using hpre y hy
  exact Option.some.inj ((hfind h).symm.trans (hfind k))

theorem Stuck.congr (h : s.Stuck r c) (hr : (t.read o).children = (s.read r).children)
    (hk : ∀ m, s.Below r m → t.read m = s.read m) : t.Stuck o c := by
  obtain ⟨pre,post,hsplit,hpre,hc⟩ := h
  have hintact : ∀ x ∈ pre ++ c :: post, t.Intact x ↔ s.Intact x := by
    intro x hx
    have hrx : s.Child r x := by rwa [Child, hsplit]
    exact Intact.congr fun m hm => hk m (hrx.below.within_trans hm)
  refine ⟨pre,post,hr.trans hsplit,fun x hx => ?_,fun h => ?_⟩
  · exact (hintact x (List.mem_append_left _ hx)).mpr (hpre x hx)
  · exact hc ((hintact c (by simp)).mp h)

/-- The values of the children say where a count of their parent halts. -/
theorem Sound.stuck {pre post : List NodeId} {us : List Tree} {w : Tree} (hs : s.Sound)
    (hr : (s.read r).children = pre ++ c :: post) (hpre : Forall₂ s.Holds pre us)
    (hus : ∀ u ∈ us, u.firstPending? = none) (hc : s.Holds c w) (hw : w.firstPending? ≠ none) :
    s.Stuck r c := by
  refine ⟨pre,post,hr,fun x hx => ?_,(hs.intact_iff hc).not.mpr hw⟩
  obtain ⟨u,hu,hxu⟩ := exists_of_forall₂ hpre hx
  exact (hs.intact_iff hxu).mpr (hus u hu)

/-- A count of `r` that halts leaves `m` taken apart: a guarded statement all bodies of which could be
moved out, on the way to where the count halts. A body that was moved out is not left so itself. -/
inductive LeftOpen (s : Store) : NodeId → NodeId → Prop
  | self {r : NodeId} {g : Guarded} {test : Condition} (hr : (s.read r).label = .guarded g test)
      (hb : ∀ b, s.Child r b → (s.read b).label.awaited? = none) (hn : ¬ s.Intact r) :
      LeftOpen s r r
  | member {r c m : NodeId} (hr : (s.read r).label = .block) (hc : s.Stuck r c)
      (h : LeftOpen s c m) : LeftOpen s r m
  | body {r b m : NodeId} {g : Guarded} {test : Condition}
      (hr : (s.read r).label = .guarded g test)
      (hb : ∀ b, s.Child r b → (s.read b).label.awaited? = none) (hc : s.Stuck r b)
      (h : LeftOpen s b m) (hne : m ≠ b) : LeftOpen s r m

namespace LeftOpen

theorem within (h : s.LeftOpen r m) : s.Within r m := by
  induction h with
  | self => exact within_refl s _
  | member _ hc _ ih => exact hc.child.below.within.trans ih
  | body _ _ hc _ _ ih => exact hc.child.below.within.trans ih

theorem congr (h : s.LeftOpen r m) (hk : ∀ k, s.Within r k → t.read k = s.read k) :
    t.LeftOpen r m := by
  induction h with
  | @self r g test hr hb hn =>
    have hread := hk r (within_refl s r)
    refine .self (by rw [hread, hr]) (fun b hrb => ?_) ((Intact.congr hk).not.mpr hn)
    rw [Child, hread] at hrb
    rw [hk b (Child.below hrb).within, hb b hrb]
  | @member r c m hr hc _ ih =>
    have hread := hk r (within_refl s r)
    refine .member (by rw [hread, hr]) ?_ (ih fun k hck => hk k (hc.child.below.within.trans hck))
    exact hc.congr (by rw [hread]) fun k hrk => hk k hrk.within
  | @body r b m g test hr hb hc _ hne ih =>
    have hread := hk r (within_refl s r)
    refine .body (by rw [hread, hr]) (fun x hrx => ?_) ?_
      (ih fun k hbk => hk k (hc.child.below.within.trans hbk)) hne
    · rw [Child, hread] at hrx
      rw [hk x (Child.below hrx).within, hb x hrx]
    · exact hc.congr (by rw [hread]) fun k hrk => hk k hrk.within

/-- Where the state of `r` has gone to `o`, the same nodes below are left open. -/
theorem of_moved (h : s.LeftOpen r m) (hm : m ≠ r) (hr : t.read o = s.read r)
    (hk : ∀ k, s.Below r k → t.read k = s.read k) : t.LeftOpen o m := by
  have hchildren : (t.read o).children = (s.read r).children := by rw [hr]
  cases h with
  | self => exact absurd rfl hm
  | member hl hc h =>
    refine .member (by rw [hr, hl]) (hc.congr hchildren hk) (h.congr fun k hck => ?_)
    exact hk k (hc.child.below.within_trans hck)
  | body hl hb hc h hne =>
    refine .body (by rw [hr, hl]) (fun x hox => ?_) (hc.congr hchildren hk)
      (h.congr fun k hbk => hk k (hc.child.below.within_trans hbk)) hne
    rw [Child, hr] at hox
    rw [hk x (Child.below hox), hb x hox]

end LeftOpen

theorem leftOpen_congr (hk : ∀ k, s.Within r k → t.read k = s.read k) :
    t.LeftOpen r m ↔ s.LeftOpen r m :=
  ⟨fun h => h.congr fun k hrk => (hk k ((Within.congr hk).mp hrk)).symm,fun h => h.congr hk⟩

theorem leftOpen_iff_of_moved (ho : m ≠ o) (hm : m ≠ r) (hr : t.read o = s.read r)
    (hk : ∀ k, s.Below r k → t.read k = s.read k) : t.LeftOpen o m ↔ s.LeftOpen r m := by
  refine ⟨fun h => h.of_moved ho hr.symm fun k hok => ?_,fun h => h.of_moved hm hr hk⟩
  exact (hk k ((Below.congr_of_moved hr hk).mp hok)).symm

theorem leftOpen_block_iff (hr : (s.read r).label = .block) (hc : s.Stuck r c) :
    s.LeftOpen r m ↔ s.LeftOpen c m := by
  constructor
  · intro h
    cases h with
    | self hl => simp [hr] at hl
    | member _ hc' h => exact hc.unique hc' ▸ h
    | body hl => simp [hr] at hl
  · exact .member hr hc

theorem leftOpen_guarded_iff (hr : (s.read r).label = .guarded g test)
    (hb : ∀ b, s.Child r b → (s.read b).label.awaited? = none) (hc : s.Stuck r c) :
    s.LeftOpen r m ↔ m = r ∨ s.LeftOpen c m ∧ m ≠ c := by
  constructor
  · intro h
    cases h with
    | self => exact Or.inl rfl
    | member hl => simp [hr] at hl
    | body _ _ hc' h hne =>
      obtain rfl := hc.unique hc'
      exact Or.inr ⟨h,hne⟩
  · rintro (rfl | ⟨h,hne⟩)
    · exact .self hr hb fun hi => hc.not_intact (hi.of_child hc.child)
    · exact .body hr hb hc h hne

/-- If a body itself is taken apart, the statement is not taken apart first. -/
theorem not_leftOpen_of_body (hr : (s.read r).label = .guarded g test) (hc : s.Child r c)
    (hp : (s.read c).label.awaited? ≠ none) : ¬ s.LeftOpen r m := by
  intro h
  cases h with
  | self _ hb => exact hp (hb c hc)
  | member hl => simp [hr] at hl
  | body _ hb => exact hp (hb c hc)

theorem not_leftOpen_of_pending {k : Kind} (hr : (s.read r).label = .pending k) :
    ¬ s.LeftOpen r m := by
  intro h
  cases h with
  | self hl => simp [hr] at hl
  | member hl => simp [hr] at hl
  | body hl => simp [hr] at hl

end Store

namespace Tree

/-- The value of a statement after a count of it has halted. A block has lost a child, and a guarded
statement is taken apart, or has lost the bodies before one that is. -/
def halted : Tree → Tree
  | .block ts => .block (ts.eraseP (·.firstPending?.isSome))
  | .guarded g test ts =>
    if ts.all (·.label.awaited?.isNone) then .pending g.kind
    else .guarded g test ((ts.takeWhile (·.label.awaited?.isNone)).map (fun _ => .block []) ++
      ts.dropWhile (·.label.awaited?.isNone))
  | t => t

mutual
/-- The records that a count of a value makes before it halts. -/
def subtotalsBeforeHalt : Tree → List Subtotal
  | .block ts => subtotalsBeforeHaltOf ts
  | .guarded _ _ ts =>
    if ts.all (·.label.awaited?.isNone) then subtotalsBeforeHaltOf ts else []
  | .call _ | .pending _ => []

def subtotalsBeforeHaltOf : List Tree → List Subtotal
  | [] => []
  | t :: ts =>
    if t.firstPending?.isSome then t.subtotalsBeforeHalt
    else t.subtotals ++ subtotalsBeforeHaltOf ts
end

variable {u : Tree} {pre post ts : List Tree}

theorem subtotalsBeforeHaltOf_append (hpre : ∀ t ∈ pre, t.firstPending? = none)
    (hu : u.firstPending? ≠ none) : subtotalsBeforeHaltOf (pre ++ u :: post) =
      subtotalsOf pre ++ u.subtotalsBeforeHalt := by
  induction pre with
  | nil => exact if_pos (Option.isSome_iff_ne_none.mpr hu)
  | cons t pre ih =>
    obtain ⟨ht,hpre⟩ := List.forall_mem_cons.mp hpre
    rw [List.cons_append, subtotalsBeforeHaltOf, if_neg (by simp [ht]), ih hpre, subtotalsOf,
      List.append_assoc]

theorem halted_block (hpre : ∀ t ∈ pre, t.firstPending? = none) (hu : u.firstPending? ≠ none) :
    (block (pre ++ u :: post)).halted = block (pre ++ post) := by
  have hnot : ∀ t ∈ pre, ¬ t.firstPending?.isSome := by
    intro t ht
    simp [hpre t ht]
  rw [halted, List.eraseP_append_right _ hnot, List.eraseP_cons_of_pos]
  exact Option.isSome_iff_ne_none.mpr hu

theorem all_assembled (h : ∀ t ∈ ts, t.label.awaited? = none) :
    ts.all (·.label.awaited?.isNone) = true :=
  List.all_eq_true.mpr fun t ht => by rw [h t ht]; rfl

theorem halted_of_assembled (h : ∀ t ∈ ts, t.label.awaited? = none) :
    (guarded g test ts).halted = pending g.kind := if_pos (all_assembled h)

theorem subtotalsBeforeHalt_of_assembled (h : ∀ t ∈ ts, t.label.awaited? = none) :
    (guarded g test ts).subtotalsBeforeHalt = subtotalsBeforeHaltOf ts := by
  rw [subtotalsBeforeHalt, if_pos (all_assembled h)]

theorem subtotalsBeforeHalt_of_pending (h : ∃ t ∈ ts, t.label.awaited? ≠ none) :
    (guarded g test ts).subtotalsBeforeHalt = [] := by
  obtain ⟨t,ht,hp⟩ := h
  rw [subtotalsBeforeHalt, if_neg]
  intro hall
  exact hp (Option.isNone_iff_eq_none.mp (List.all_eq_true.mp hall t ht))

theorem halted_of_pending (hpre : ∀ t ∈ pre, t.label.awaited? = none)
    (hu : u.label.awaited? ≠ none) : (guarded g test (pre ++ u :: post)).halted =
      guarded g test (pre.map (fun _ => block []) ++ u :: post) := by
  have hall : ∀ t ∈ pre, t.label.awaited?.isNone = true := by
    intro t ht
    rw [hpre t ht]
    rfl
  have hnot : u.label.awaited?.isNone = false := by
    cases h : u.label.awaited? with
    | none => exact absurd h hu
    | some k => rfl
  rw [halted, if_neg (by simp [hnot]), List.takeWhile_append_of_pos hall,
    List.dropWhile_append_of_pos hall, List.takeWhile_cons, List.dropWhile_cons, hnot]
  simp

end Tree

namespace Tally
open TallyM Statement

/-- What a count of `n` that halts has done to the store. -/
structure Halted (s : Store) (n : NodeId) (w : Tree) (t : Store) : Prop where
  kept : ∀ m ∈ s, ¬ s.Within n m → t.read m = s.read m
  holds : t.Holds n w.halted
  leftOpen_iff : ∀ m ∈ s, (s.read m).label.awaited? = none →
    ((t.read m).label.awaited? ≠ none ↔ s.LeftOpen n m)

/-- `count` halts on all nodes of values no deeper than `d` in which something is taken apart. -/
def Halts (d : ℕ) (count : NodeId → TallyM ℕ) : Prop :=
  ∀ {s n w} (records), s.Sound → s.Acyclic → n ∈ s → s.treeWithin? d n = some w →
    w.firstPending? ≠ none → ∃ k t, count n ⟨s,records⟩ = .error (.violation (.disassembled k))
        ⟨t,w.subtotalsBeforeHalt.reverse ++ records⟩ ∧
      Halted s n w t

/-- What is as before or empty is taken apart only if it was. -/
theorem awaited?_of_read (h : t.read m = s.read m ∨ t.read m = {})
    (hm : (s.read m).label.awaited? = none) : (t.read m).label.awaited? = none := by
  rcases h with h | h
  · rw [h, hm]
  · rw [h]
    rfl

end Tally

theorem TallyM.edit_of_error {α : Type} {x : StoreM α} {e : Fault} {records : List Subtotal}
    (h : x s = .error e t) : edit x ⟨s,records⟩ = .error e ⟨t,records⟩ := by
  simp only [edit, h]

end RobotCode
