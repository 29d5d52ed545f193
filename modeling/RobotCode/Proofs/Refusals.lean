import RobotCode.Proofs.Agreement
import RobotCode.Proofs.Lockstep
import RobotCode.Proofs.Profiles

/-! # Refusals

A look at a whole statement is refused if anything in it is taken apart. Whatever is asked for, it
is the same node that is complained of, the first one from the top down and from left to right, and
no node in use is changed.
-/
namespace RobotCode
open Store
open List (Forall₂)
variable {s t : Store} {n : NodeId} {w : Tree} {ws : List Tree} {cs : List NodeId} {d : ℕ}
  {k : Kind}

namespace Store

/-- The first node of `n` from the top down that is taken apart has to be assembled as a `k`. -/
def FirstApart (s : Store) (n : NodeId) (k : Kind) : Prop :=
  ∃ before m after, s.preorder n = before ++ m :: after ∧ (s.read m).label.awaited? = some k ∧
    ∀ x ∈ before, (s.read x).label.awaited? = none

theorem findSome?_children {f : NodeId → List NodeId} {g : NodeId → Option Kind}
    (h : Forall₂ (fun c t => (f c).findSome? g = t.firstPending?) cs ws) :
    (cs.flatMap f).findSome? g = Tree.firstPendingOf? ws := by
  induction h with
  | nil => rfl
  | @cons c t cs ws hc _ ih =>
    rw [List.flatMap_cons, List.findSome?_append, hc, ih, Tree.firstPendingOf?]
    cases t.firstPending? <;> rfl

theorem Sound.findSome?_family (hs : s.Sound) (h : s.treeWithin? d n = some w) :
    (s.family d n).findSome? (fun m => (s.read m).label.awaited?) = w.firstPending? := by
  induction d generalizing n w with
  | zero => simp [treeWithin?] at h
  | succ d ih =>
    obtain ⟨hl,hts⟩ := hs.of_treeWithin? h
    rw [family, List.findSome?_cons, findSome?_children (hts.imp fun _ _ hc => ih hc), hl,
      w.firstPending?_eq]
    cases w.label.awaited? <;> rfl

theorem Sound.firstApart_iff (hs : s.Sound) (h : s.tree? n = some w) :
    s.FirstApart n k ↔ w.firstPending? = some k := by
  rw [← hs.findSome?_family h]
  exact List.findSome?_eq_some_iff.symm

theorem pairsWithin_self (s : Store) (d : ℕ) (n : NodeId) :
    s.pairsWithin d (n,n) = (s.family d n).map fun m => (m,m) := by
  induction d generalizing n with
  | zero => rfl
  | succ d ih =>
    rw [pairsWithin, family, List.map_cons, List.map_flatMap, List.zip_eq_zipWith,
      List.zipWith_self, List.flatMap_map]
    simp only [ih]

theorem allM_alike_self (s : Store) (ns : List NodeId) : (ns.map fun m => (m,m)).allM s.alike =
    match ns.findSome? (fun m => (s.read m).label.awaited?) with
    | some k => .error (.violation (.disassembled k))
    | none => .ok true := by
  induction ns with
  | nil => rfl
  | cons m ns ih =>
    rw [List.map_cons, List.findSome?_cons]
    cases hm : (s.read m).label.awaited? with
    | some k => exact allM_cons_of_error (alike_of_left hm)
    | none =>
      have halike := alike_of_not_apart (not_apart_iff.mpr ⟨hm,hm⟩ : ¬ s.Apart (m,m))
      have hsame : ¬ s.Differ (m,m) := not_differ_iff.mpr ⟨rfl,rfl,rfl,rfl⟩
      rw [allM_cons_of_ok halike, decide_eq_true hsame, ih]
      rfl

/-- A statement equals itself, unless something in it is taken apart. -/
theorem Sound.equal_self (hs : s.Sound) (ha : s.Acyclic) (h : s.Holds n w) :
    s.equal n n = w.inFull true := by
  rw [equal_eq_allM ha, lockstep, pairsWithin_self, allM_alike_self,
    hs.findSome?_family h.tree?]
  rfl

end Store

namespace Statement
open StoreM

/-- The children are copied one after another, up to the first one in which anything is taken apart.
-/
theorem copies_of_pending
    (hf : ∀ c t s, s.Sound → c ∈ s → s.treeWithin? d c = some t → t.firstPending? = some k →
      ∃ v, copyWithin d c s = .error (.violation (.disassembled k)) v ∧ s.Extends v)
    (hs : s.Sound) (hc : ∀ c ∈ cs, c ∈ s)
    (hws : Forall₂ (fun c t => s.treeWithin? d c = some t) cs ws)
    (hp : Tree.firstPendingOf? ws = some k) :
    ∃ v, cs.mapM (copyWithin d) s = .error (.violation (.disassembled k)) v ∧ s.Extends v := by
  induction cs generalizing s ws with
  | nil =>
    cases hws
    cases hp
  | cons c cs ih =>
    obtain ⟨hcm,hcs⟩ := List.forall_mem_cons.mp hc
    cases hws with | @cons _ t _ ws ht hws =>
    rw [List.mapM_cons]
    rw [Tree.firstPendingOf?] at hp
    cases hpt : t.firstPending? with
    | some j =>
      rw [hpt] at hp
      obtain rfl : j = k := Option.some.inj hp
      obtain ⟨v,hv,hext⟩ := hf c t s hs hcm ht hpt
      exact ⟨v,bind_of_error hv,hext⟩
    | none =>
      rw [hpt] at hp
      obtain ⟨o,v,hv,he,ho⟩ := exists_copyWithin hs hcm ht hpt
      obtain ⟨u,hu,hext⟩ := ih (he.sound hs) (fun b hb => he.mem (hcs b hb))
        (ho.extends_.forall₂_treeWithin? hs hcs hws) hp
      refine ⟨u,?_,ho.extends_.trans hext⟩
      rw [bind_of_ok hv, bind_of_error hu]

theorem copyWithin_of_pending (hs : s.Sound) (hn : n ∈ s) (hw : s.treeWithin? d n = some w)
    (hp : w.firstPending? = some k) :
    ∃ v, copyWithin d n s = .error (.violation (.disassembled k)) v ∧ s.Extends v := by
  induction d generalizing s n w with
  | zero => simp [treeWithin?] at hw
  | succ d ih =>
    obtain ⟨hl,hws⟩ := hs.of_treeWithin? hw
    rw [Tree.firstPending?_eq, ← hl] at hp
    unfold copyWithin
    cases ha : (s.read n).label.awaited? with
    | some j =>
      rw [ha] at hp
      obtain rfl : j = k := Option.some.inj hp
      exact ⟨s,bind_of_error (ask_of_error (fields_of_some ha)),.refl s⟩
    | none =>
      rw [ha] at hp
      obtain ⟨v,hv,hext⟩ := copies_of_pending (fun c t s hs hc ht hk => ih hs hc ht hk) hs
        (fun c hc => hs.mem_of_child hc) hws hp
      have hcopies : (s.cell n).children.mapM (copyWithin d) s = .error _ v := hv
      refine ⟨v,?_,hext⟩
      rw [bind_of_ok (ask_of_ok (fields_of_none ha)), bind_of_error hcopies]

end Statement

/-- The commands that look at all of a statement: its number of nodes, a copy, the profile, the
vector and the density of its calls, and whether it equals itself. -/
def Command.views (n : NodeId) : List Command :=
  [.size n,.copy n,.profile (.statement n),.vector (.statement n),.density (.statement n),
    .equals (.statement n) (.statement n)]

open StoreM Statement

theorem views_of_intact (hs : s.Sound) (ha : s.Acyclic) (hn : n ∈ s) (hw : s.Holds n w)
    (hp : w.firstPending? = none) : ∀ c ∈ Command.views n, ∃ a t, c.run s = .ok a t := by
  have hfull : ∀ {α : Type} (a : α), w.inFull a = .ok a := fun a => by rw [Tree.inFull, hp]
  have hsize : Statement.size n s = .ok w.size s := ask_of_ok ((hs.sizeOf_eq hw).trans (hfull _))
  have hprofile : Profile.of (.statement n) s = .ok (Profile.ofPrimitives w.primitives) s :=
    ask_of_ok ((hs.profile_eq hw).trans (hfull _))
  have hequal : equals (.statement n) (.statement n) s = .ok true s :=
    ask_of_ok (f := (·.equal n n)) ((hs.equal_self ha hw).trans (hfull _))
  obtain ⟨o,u,hcopy,_⟩ := exists_copyWithin hs hn hw.tree? hp
  obtain ⟨v,hcount,_⟩ := Tally.count_of_holds hs ha hn hw hp
  have hdensity : Density.of (.statement n) s = .ok ⟨w.primitives.length,w.size⟩ v := by
    have hself : ask (fun _ => Argument.toStatement "num_nodes" (.statement n)) s = .ok n s := rfl
    unfold Density.of
    rw [bind_of_ok hself, bind_of_ok hsize, bind_of_ok hcount]
    rfl
  simp only [Command.views, List.forall_mem_cons]
  exact ⟨⟨_,_,bind_of_ok hsize⟩,⟨_,_,bind_of_ok hcopy⟩,⟨_,_,bind_of_ok hprofile⟩,
    ⟨_,_,bind_of_ok hprofile⟩,⟨_,_,bind_of_ok hdensity⟩,⟨_,_,bind_of_ok hequal⟩,by simp⟩

theorem views_of_pending (hs : s.Sound) (ha : s.Acyclic) (hn : n ∈ s) (hw : s.Holds n w)
    (hp : w.firstPending? = some k) : ∀ c ∈ Command.views n,
      ∃ t, c.run s = .error (.violation (.disassembled k)) t ∧ s.Extends t := by
  have hfull : ∀ {α : Type} (a : α), w.inFull a = .error (.violation (.disassembled k)) :=
    fun a => by rw [Tree.inFull, hp]
  have hsize : Statement.size n s = .error (.violation (.disassembled k)) s :=
    ask_of_error ((hs.sizeOf_eq hw).trans (hfull _))
  have hprofile : Profile.of (.statement n) s = .error (.violation (.disassembled k)) s :=
    ask_of_error ((hs.profile_eq hw).trans (hfull _))
  have hequal : equals (.statement n) (.statement n) s = .error (.violation (.disassembled k)) s :=
    ask_of_error (f := (·.equal n n)) ((hs.equal_self ha hw).trans (hfull _))
  have hdensity : Density.of (.statement n) s = .error (.violation (.disassembled k)) s := by
    have hself : ask (fun _ => Argument.toStatement "num_nodes" (.statement n)) s = .ok n s := rfl
    unfold Density.of
    rw [bind_of_ok hself, bind_of_error hsize]
  obtain ⟨v,hcopy,hext⟩ := copyWithin_of_pending hs hn hw.tree? hp
  simp only [Command.views, List.forall_mem_cons]
  exact ⟨⟨s,bind_of_error hsize,.refl s⟩,⟨v,bind_of_error hcopy,hext⟩,
    ⟨s,bind_of_error hprofile,.refl s⟩,⟨s,bind_of_error hprofile,.refl s⟩,
    ⟨s,bind_of_error hdensity,.refl s⟩,⟨s,bind_of_error hequal,.refl s⟩,by simp⟩

/-- In a forest every view of a statement in which nothing is taken apart has an answer. If anything
in it is taken apart, all of them fail with one message, which names what the first such node from
the top down has to be assembled as, and every node in use stays as it is. The text is written all
the same. -/
theorem views_refused_alike {allowed : Store → Command → Prop} (h : Reachable allowed s)
    (hf : s.Forest) (hn : n ∈ s) :
    (s.Intact n → ∀ c ∈ Command.views n, ∃ a t, c.run s = .ok a t) ∧
    (¬ s.Intact n → ∃ k, s.FirstApart n k ∧
      (Violation.disassembled k).message =
        "Statement is disassembled (pending assemble for " ++ k.name ++ ")" ∧
      ∀ c ∈ Command.views n, ∃ t, c.run s = .error (.violation (.disassembled k)) t ∧
        ∀ m ∈ s, t.read m = s.read m) ∧
    ∃ w, s.tree? n = some w ∧ (Command.text (.statement n)).run s = .ok (.text w.text) s := by
  have hs := h.sound
  have ha := hf.acyclic
  obtain ⟨w,hw⟩ := exists_tree? ha n
  have hholds := holds_of_tree? hw
  rw [hs.intact_iff hholds]
  refine ⟨views_of_intact hs ha hn hholds,fun hp => ?_,w,hw,?_⟩
  · obtain ⟨k,hk⟩ := Option.ne_none_iff_exists'.mp hp
    refine ⟨k,(hs.firstApart_iff hw).mpr hk,rfl,fun c hc => ?_⟩
    obtain ⟨t,ht,hext⟩ := views_of_pending hs ha hn hholds hk c hc
    exact ⟨t,ht,hext.read_eq⟩
  · have htext : (Argument.statement n).shown s.text = .ok w.text := text_of_tree? hw
    unfold Command.run
    exact ask_of_ok (by rw [htext]; rfl)

/-- All views of the block complain of the call, which lies at the bottom. -/
theorem views_refused_alike_stranded : ∃ k, stranded.FirstApart ⟨5⟩ k ∧
    (Violation.disassembled k).message =
      "Statement is disassembled (pending assemble for " ++ k.name ++ ")" ∧
    ∀ c ∈ Command.views ⟨5⟩, ∃ t, c.run stranded = .error (.violation (.disassembled k)) t ∧
      ∀ m ∈ stranded, t.read m = stranded.read m :=
  (views_refused_alike reachable_stranded forest_stranded (by decide)).2.1 not_intact_stranded

end RobotCode
