import RobotCode.Proofs.Recount.Basic
import RobotCode.Proofs.Reachable

/-! # What views say about values

The answers of the views depend on values only. A view of a statement in which nothing is taken
apart always ends: its size, its calls and its comparison with another statement are those of the
values, and it can be copied.
-/
namespace RobotCode
open Store
open List (Forall₂)
variable {s : Store} {m n c : NodeId} {t u : Tree} {ts us : List Tree} {d k : ℕ}

namespace Tree

theorem eq_iff_label_parts : t = u ↔ t.label = u.label ∧ t.parts = u.parts := by
  constructor
  · rintro rfl
    exact ⟨rfl,rfl⟩
  · rintro ⟨hl,hp⟩
    rw [← t.tree_label, hl, hp, u.tree_label]

theorem firstPending?_eq_none_iff_parts : t.firstPending? = none ↔
    t.label.awaited? = none ∧ ∀ p ∈ t.parts, p.firstPending? = none := by
  rw [firstPending?_eq, ← firstPendingOf?_eq_none_iff]
  cases t.label.awaited? <;> simp

/-- A result on a whole statement: there is none if anything in it is taken apart. -/
def inFull {α : Type} (t : Tree) (a : α) : Except Fault α :=
  match t.firstPending? with
  | some k => .error (.violation (.disassembled k))
  | none => .ok a

theorem callsIn_append (ts us : List Tree) : callsIn (ts ++ us) = callsIn ts + callsIn us := by
  simp [callsIn]

theorem callsIn_reverse (ts : List Tree) : callsIn ts.reverse = callsIn ts := by
  simp [callsIn, List.sum_reverse]

theorem length_primitives (t : Tree) :
    t.primitives.length = t.label.primitives.length + callsIn t.parts := by
  rw [primitives_eq, List.length_append, List.length_flatMap]
  rfl

end Tree

/-- What is gathered along a list of statements is gathered along their values, up to the first one
in which something is taken apart. -/
theorem foldlM_inFull {β : Type} {f : β → NodeId → Except Fault β} {g : β → Tree → β}
    {cs : List NodeId} (h : Forall₂ (fun c t => ∀ b, f b c = t.inFull (g b t)) cs ts) (b : β) :
    cs.foldlM f b =
      match Tree.firstPendingOf? ts with
      | some k => .error (.violation (.disassembled k))
      | none => .ok (ts.foldl g b) := by
  induction h generalizing b with
  | nil => rfl
  | @cons c t cs ts hc _ ih =>
    rw [List.foldlM_cons, hc, Tree.inFull, Tree.firstPendingOf?]
    cases t.firstPending? with
    | some k => rfl
    | none => exact ih (g b t)

theorem foldl_sizes (ts : List Tree) (total : ℕ) :
    ts.foldl (fun n t => n + t.size) total = total + (ts.map Tree.size).sum := by
  induction ts generalizing total with
  | nil => rfl
  | cons t ts ih => rw [List.foldl_cons, ih, List.map_cons, List.sum_cons, Nat.add_assoc]

theorem foldlM_sizes {f : NodeId → Except Fault ℕ} {cs : List NodeId}
    (h : Forall₂ (fun c t => f c = t.inFull t.size) cs ts) (total : ℕ) :
    cs.foldlM (fun total c => do return total + (← f c)) total =
      match Tree.firstPendingOf? ts with
      | some k => .error (.violation (.disassembled k))
      | none => .ok (total + (ts.map Tree.size).sum) := by
  rw [← foldl_sizes]
  refine foldlM_inFull (h.imp fun c t hc n => ?_) total
  rw [hc, Tree.inFull, Tree.inFull]
  cases t.firstPending? <;> rfl

/-- The size of a statement is that of its value, unless something in it is taken apart. -/
theorem Store.Sound.sizeWithin_eq (hs : s.Sound) (h : s.treeWithin? d n = some t) :
    s.sizeWithin d n = t.inFull t.size := by
  induction d generalizing n t with
  | zero => simp [treeWithin?] at h
  | succ d ih =>
    obtain ⟨hl,hts⟩ := hs.of_treeWithin? h
    unfold sizeWithin
    rw [Tree.inFull, Tree.firstPending?_eq, ← hl]
    cases hp : (s.read n).label.awaited? with
    | some k =>
      rw [assembled_of_some hp]
      rfl
    | none =>
      have hfold := foldlM_sizes (hts.imp fun _ _ hc => ih hc) 1
      rw [assembled_of_none hp, t.size_eq]
      exact hfold

theorem Store.Sound.sizeOf_eq (hs : s.Sound) (h : s.Holds n t) :
    s.sizeOf n = t.inFull t.size :=
  hs.sizeWithin_eq h.tree?

/-- Statements whose fields fit together look the same if they have the same kind, test and name. -/
theorem Cell.Fits.label_eq_iff {b c : Cell} (hb : b.Fits) (hc : c.Fits) (hba : b.awaited? = none)
    (hca : c.awaited? = none) :
    b.label = c.label ↔ b.kind = c.kind ∧ b.test? = c.test? ∧ b.name? = c.name? := by
  constructor
  · intro h
    rw [← kind_label hba, ← kind_label hca, ← hb.label_eq.1, ← hb.label_eq.2, ← hc.label_eq.1,
      ← hc.label_eq.2, h]
    exact ⟨rfl,rfl,rfl⟩
  · rintro ⟨hkind,htest,hname⟩
    rw [label, label, hba, hca, hkind, htest, hname]

theorem allM_zip {R S : NodeId → Tree → Prop} {f : NodeId × NodeId → Except Fault Bool}
    {xs ys : List NodeId} (hx : Forall₂ R xs ts) (hy : Forall₂ S ys us)
    (hlen : xs.length = ys.length)
    (hf : ∀ x t y u, t ∈ ts → u ∈ us → R x t → S y u → f (x,y) = .ok (decide (t = u))) :
    (xs.zip ys).allM f = .ok (decide (ts = us)) := by
  induction hx generalizing ys us with
  | nil =>
    obtain rfl := List.length_eq_zero_iff.mp hlen.symm
    cases hy
    rfl
  | @cons x t xs ts hr _ ih =>
    obtain _ | ⟨hs,hrest⟩ := hy
    · simp at hlen
    rename_i y u ys us
    have hhead := hf x t y u (List.mem_cons_self ..) (List.mem_cons_self ..) hr hs
    have htail := ih hrest (by simpa using hlen) fun x t y u ht hu =>
      hf x t y u (List.mem_cons_of_mem _ ht) (List.mem_cons_of_mem _ hu)
    rw [List.zip_cons_cons, List.allM, hhead]
    by_cases h : t = u
    · simp only [h, decide_true, bind, Except.bind, List.cons.injEq, true_and]
      exact htail
    · simp [h, bind, Except.bind, pure, Except.pure]

/-- Two statements are equal exactly if their values are. -/
theorem Store.Sound.equalWithin_eq (hs : s.Sound) (ht : s.treeWithin? d m = some t)
    (hu : s.Holds n u) (hpt : t.firstPending? = none) (hpu : u.firstPending? = none) :
    s.equalWithin d m n = .ok (decide (t = u)) := by
  induction d generalizing m n t u with
  | zero => simp [treeWithin?] at ht
  | succ d ih =>
    obtain ⟨hlt,hts⟩ := hs.of_treeWithin? ht
    obtain ⟨hlu,hus⟩ := hs.of_holds hu
    obtain ⟨hat,hpts⟩ := Tree.firstPending?_eq_none_iff_parts.mp hpt
    obtain ⟨hau,hpus⟩ := Tree.firstPending?_eq_none_iff_parts.mp hpu
    rw [← hlt] at hat
    rw [← hlu] at hau
    unfold equalWithin
    rw [fields_of_none hat, fields_of_none hau]
    dsimp only [bind, Except.bind]
    have hiff := Tree.eq_iff_label_parts (t := t) (u := u)
    rw [awaited?_read] at hat hau
    have hfields := (hs.fits m).label_eq_iff (hs.fits n) hat hau
    split
    next h =>
      obtain ⟨hkind,htest,hname,hlen⟩ := h
      have hall := allM_zip (f := fun p => s.equalWithin d p.1 p.2) hts hus hlen
        fun x t y u ht hu hx hy => ih hx hy (hpts t ht) (hpus u hu)
      have hl : t.label = u.label := hlt.symm.trans ((hfields.mpr ⟨hkind,htest,hname⟩).trans hlu)
      simp only [hiff, hl, true_and]
      exact hall
    next h =>
      have hne : t ≠ u := by
        intro e
        obtain ⟨hl,hp⟩ := hiff.mp e
        obtain ⟨hkind,htest,hname⟩ := hfields.mp (hlt.trans (hl.trans hlu.symm))
        refine h ⟨hkind,htest,hname,?_⟩
        rw [show (s.cell m).children.length = t.parts.length from hts.length_eq, hp]
        exact hus.length_eq.symm
      simp only [hne, decide_false]
      rfl

theorem Store.Sound.equal_eq (hs : s.Sound) (ht : s.Holds m t) (hu : s.Holds n u)
    (hpt : t.firstPending? = none) (hpu : u.firstPending? = none) :
    s.equal m n = .ok (decide (t = u)) := by
  have hle : s.size + 1 ≤ s.size * s.size + 1 := by
    have := Nat.le_mul_self s.size
    omega
  exact hs.equalWithin_eq (treeWithin?_mono ht.tree? hle) hu hpt hpu

/-- One step of the walk: the children of the node on top take its place. -/
theorem Store.Sound.walk_succ {stack : List NodeId} (hs : s.Sound)
    (h : (s.read n).label.awaited? = none) (calls : ℕ) : s.walk (k + 1) (n :: stack) calls =
      s.walk k ((s.read n).children.reverse ++ stack)
        (calls + (s.read n).label.primitives.length) := by
  have hshaped := hs.shaped n
  rw [Node.Shaped] at hshaped
  conv_lhs => unfold walk
  rw [assembled_of_none h]
  dsimp only [bind, Except.bind]
  cases hl : (s.read n).label with
  | call name =>
    rw [hl] at hshaped
    have hchildren : (s.read n).children = [] := hshaped
    have hlen : (Label.call name).primitives.length = if Primitive.isPrimitive name then 1 else 0 :=
      (Tree.call name).length_primitives.symm.trans (Tree.length_primitives_call name)
    have hcalls : (if Primitive.isPrimitive name then calls + 1 else calls) =
        calls + (Label.call name).primitives.length := by
      rw [hlen]
      cases Primitive.isPrimitive name <;> rfl
    rw [hchildren, ← hcalls]
    rfl
  | block => rfl
  | guarded g c => rfl
  | pending j => rfl

/-- The values of the nodes that wait on the stack say how the walk ends. -/
theorem Store.Sound.walk_cases {stack : List NodeId} (hs : s.Sound) (h : Forall₂ s.Holds stack ts)
    (hk : (ts.map Tree.size).sum ≤ k) (calls : ℕ) :
    (∀ t ∈ ts, t.firstPending? = none) ∧ s.walk k stack calls = .ok (calls + Tree.callsIn ts) ∨
      (∃ t ∈ ts, t.firstPending? ≠ none) ∧
        ∃ j, s.walk k stack calls = .error (.violation (.disassembled j)) := by
  induction k generalizing stack ts calls with
  | zero =>
    cases h with
    | nil => exact Or.inl ⟨by simp,rfl⟩
    | @cons _ t _ _ _ _ =>
      have := t.size_pos
      rw [List.map_cons, List.sum_cons] at hk
      omega
  | succ k ih =>
    cases h with
    | nil => exact Or.inl ⟨by simp,rfl⟩
    | @cons n t stack ts hn hstack =>
      obtain ⟨hl,hparts⟩ := hs.of_holds hn
      have hpending := t.firstPending?_eq_none_iff_parts
      cases ha : (s.read n).label.awaited? with
      | some j =>
        refine Or.inr ⟨⟨t,List.mem_cons_self ..,fun hp => ?_⟩,j,?_⟩
        · rw [hl, (hpending.mp hp).1] at ha
          cases ha
        · unfold walk
          rw [assembled_of_some ha]
          rfl
      | none =>
        have hsize := t.size_eq
        rw [List.map_cons, List.sum_cons] at hk
        have hall := List.rel_append (List.forall₂_reverse_iff.mpr hparts) hstack
        have hsum : ((t.parts.reverse ++ ts).map Tree.size).sum ≤ k := by
          rw [List.map_append, List.sum_append, List.map_reverse, List.sum_reverse]
          omega
        have hnone : (∀ p ∈ t.parts.reverse ++ ts, p.firstPending? = none) ↔
            ∀ u ∈ t :: ts, u.firstPending? = none := by
          rw [List.forall_mem_append, List.forall_mem_cons, hpending, ← hl, ha]
          simp
        rw [hs.walk_succ ha]
        rcases ih hall hsum (calls + (s.read n).label.primitives.length) with
          ⟨hp,hw⟩ | ⟨⟨p,hpm,hp⟩,hw⟩
        · refine Or.inl ⟨hnone.mp hp,?_⟩
          rw [hw, Tree.callsIn_append, Tree.callsIn_reverse, Tree.callsIn_cons, t.length_primitives,
            hl, Nat.add_assoc, Nat.add_assoc]
        · refine Or.inr ⟨?_,hw⟩
          by_contra hno
          refine hp (hnone.mpr (fun u hu => ?_) p hpm)
          by_contra h
          exact hno ⟨u,hu,h⟩

/-- A walk from one node has steps enough for its whole value. -/
theorem Tally.countWalking_cases (hs : s.Sound) (ha : s.Acyclic) (hn : n ∈ s) (h : s.Holds n t) :
    t.firstPending? = none ∧ countWalking (.statement n) s = .ok t.primitives.length s ∨
      t.firstPending? ≠ none ∧
        ∃ j, countWalking (.statement n) s = .error (.violation (.disassembled j)) s := by
  have hle := hs.size_le ha hn h
  have hcases := hs.walk_cases (k := s.size + 1) (.cons h .nil)
    (by simp only [List.map_cons, List.map_nil, List.sum_cons, List.sum_nil]; omega) 0
  rcases hcases with ⟨hp,hw⟩ | ⟨⟨u,hu,hp⟩,j,hw⟩
  · refine Or.inl ⟨by simpa using hp,StoreM.ask_of_ok ?_⟩
    have hcalls : 0 + Tree.callsIn [t] = t.primitives.length := by simp [Tree.callsIn]
    rw [← hcalls]
    exact hw
  · obtain rfl := List.mem_singleton.mp hu
    exact Or.inr ⟨hp,j,StoreM.ask_of_error hw⟩

theorem Tally.countWalking_eq (hs : s.Sound) (ha : s.Acyclic) (hn : n ∈ s) (h : s.Holds n t)
    (hp : t.firstPending? = none) :
    countWalking (.statement n) s = .ok t.primitives.length s := by
  rcases countWalking_cases hs ha hn h with ⟨_,hw⟩ | ⟨hnot,_⟩
  · exact hw
  · exact absurd hp hnot

theorem Store.Extends.forall₂_treeWithin? {v : Store} {cs : List NodeId} (h : s.Extends v)
    (hs : s.Sound) (hc : ∀ c ∈ cs, c ∈ s)
    (hts : Forall₂ (fun c t => s.treeWithin? d c = some t) cs ts) :
    Forall₂ (fun c t => v.treeWithin? d c = some t) cs ts :=
  (forall₂_with_mem hts).imp fun c _ hct => treeWithin?_congr hct.2 fun m hm =>
    h.read_eq m (hs.mem_of_within (hc c hct.1) hm)

namespace Statement
open StoreM

theorem exists_copies {f : NodeId → StoreM NodeId} {cs : List NodeId}
    (hf : ∀ c t s, s.Sound → c ∈ s → s.treeWithin? d c = some t → t.firstPending? = none →
      ∃ o v, f c s = .ok o v ∧ Edits True s v ∧ Copied s c o v)
    (hs : s.Sound) (hc : ∀ c ∈ cs, c ∈ s)
    (h : Forall₂ (fun c t => s.treeWithin? d c = some t) cs ts)
    (hp : ∀ t ∈ ts, t.firstPending? = none) : ∃ os v, cs.mapM f s = .ok os v := by
  induction cs generalizing s ts with
  | nil => exact ⟨[],s,rfl⟩
  | cons c cs ih =>
    obtain _ | ⟨hct,hts⟩ := h
    obtain ⟨hcm,hcs⟩ := List.forall_mem_cons.mp hc
    obtain ⟨hpt,hpts⟩ := List.forall_mem_cons.mp hp
    obtain ⟨o,v,hv,he,ho⟩ := hf c _ s hs hcm hct hpt
    obtain ⟨os,w,hw⟩ := ih (he.sound hs) (fun b hb => he.mem (hcs b hb))
      (ho.extends_.forall₂_treeWithin? hs hcs hts) hpts
    refine ⟨o :: os,w,?_⟩
    rw [List.mapM_cons, bind_of_ok hv, bind_of_ok hw]
    rfl

theorem copied_of_ok {o : NodeId} {v : Store} (hs : s.Sound) (hn : n ∈ s)
    (h : copyWithin d n s = .ok o v) : Edits True s v ∧ Copied s n o v := by
  have hleads : Leads True id (copyWithin d n) s (Copied s n) := leads_copyWithin hs hn
  exact ⟨hleads.edits_of_ok h,hleads.result_of_ok h⟩

/-- A statement in which nothing is taken apart can be copied. -/
theorem exists_copyWithin (hs : s.Sound) (hn : n ∈ s) (h : s.treeWithin? d n = some t)
    (hp : t.firstPending? = none) :
    ∃ o v, copyWithin d n s = .ok o v ∧ Edits True s v ∧ Copied s n o v := by
  induction d generalizing s n t with
  | zero => simp [treeWithin?] at h
  | succ d ih =>
    obtain ⟨hl,hts⟩ := hs.of_treeWithin? h
    obtain ⟨ha,hpp⟩ := Tree.firstPending?_eq_none_iff_parts.mp hp
    obtain ⟨os,v,hv⟩ := exists_copies (fun c t s hs hc ht hpt => ih hs hc ht hpt) hs
      (fun c hc => hs.mem_of_child hc) hts hpp
    have hcopies : (s.cell n).children.mapM (copyWithin d) s = .ok os v := hv
    have hok : copyWithin (d + 1) n s =
        .ok v.next (v.push { s.cell n with children := os, awaited? := none }) := by
      unfold copyWithin
      rw [bind_of_ok (ask_of_ok (fields_of_none (by rw [hl, ha]))), bind_of_ok hcopies]
      rfl
    exact ⟨_,_,hok,copied_of_ok hs hn hok⟩

theorem exists_copy (hs : s.Sound) (hn : n ∈ s) (h : s.Holds n t)
    (hp : t.firstPending? = none) :
    ∃ o v, copy n s = .ok o v ∧ Edits True s v ∧ Copied s n o v :=
  exists_copyWithin hs hn h.tree? hp

end Statement
end RobotCode
