import RobotCode.Proofs.Fence
import RobotCode.Proofs.Halt
import RobotCode.Proofs.Views

/-! # Copies stand apart

The nodes in use before a copy and the nodes that came with it or after it do not lead to each
other. What is done on one side is not seen on the other.
-/
namespace RobotCode
open Store
variable {base s t u : Store} {n m p c d : NodeId} {own : NodeId → Prop}

/-- All nodes that are not own are as in `base`, and own nodes lead to own ones only. -/
structure Beside (base : Store) (own : NodeId → Prop) (s : Store) : Prop where
  size_le : base.size ≤ s.size
  kept : ∀ m, ¬ own m → m ∈ base ∧ s.read m = base.read m
  closed : ∀ {p c}, own p → s.Child p c → own c

namespace Beside

theorem push (h : Beside base own s) : Beside base own (s.push {}) where
  size_le := Nat.le_trans h.size_le (by simp)
  kept m hm := by rw [read_push_empty]; exact h.kept m hm
  closed hp hc := h.closed hp (child_push_empty.mp hc)

theorem put {f : Cell} (h : Beside base own s) (hn : own n) (hf : ∀ c ∈ f.children, own c) :
    Beside base own (s.put n f) where
  size_le := by
    rw [size_put]
    exact Nat.le_trans h.size_le (Nat.le_max_left ..)
  kept m hm := by
    have hne : m ≠ n := by
      rintro rfl
      exact hm hn
    rw [read_put, if_neg hne]
    exact h.kept m hm
  closed {p c} hp hc := by
    rw [child_put] at hc
    split at hc
    next => exact hf c hc
    next => exact h.closed hp hc

theorem own_next (h : Beside base own s) : own s.next := by
  by_contra hnot
  exact s.next_not_mem (Nat.lt_of_lt_of_le (h.kept _ hnot).1 h.size_le)

theorem own_of_within (h : Beside base own s) (hn : own n) (hw : s.Within n m) : own m := by
  induction hw with
  | refl => exact hn
  | tail _ hc ih => exact h.closed ih hc

end Beside

/-- Between own nodes and all others. -/
def Fence.beside (base : Store) (own : NodeId → Prop) : Fence where
  inv := Beside base own
  given := own
  own := own
  given_of_own := id
  own_next := Beside.own_next
  own_of_assembled _ hn _ := hn
  given_of_child h hp hc := h.closed hp hc
  inv_push := Beside.push
  inv_put h hn hf := h.put hn hf

theorem Command.Handles.imp {P Q : NodeId → Prop} {c : Command} (h : c.Handles P)
    (hPQ : ∀ n, P n → Q n) : c.Handles Q := fun a ha n hn => hPQ n (h a ha n hn)

theorem Command.Handles.of_assembled? {P : NodeId → Prop} {c : Command} {q : Kind × NodeId}
    (h : c.Handles P) (hq : q ∈ c.assembled?) : P q.2 := by
  cases c with
  | assembleIf r test body | assembleIfElse r test body₁ body₂ | assembleWhile r test body
  | assembleCall r name =>
    cases hq
    exact h _ (List.mem_cons_self ..) _ rfl
  | _ => cases hq

/-- A run that is handed own nodes only stays on its side. -/
theorem Runs.beside {P : Store → NodeId → Prop} (h : Beside base own s)
    (hP : ∀ {t m}, Beside base own t → P t m → own m)
    (hr : Runs (fun t c => c.Handles (P t)) s t) : Beside base own t := by
  refine hr.keeps h fun {t u c} ht hc hu => ?_
  have hown : c.Handles own := hc.imp fun m hm => hP ht hm
  exact Fence.inv_of_next? (F := .beside base own) ht hown (fun q hq => hown.of_assembled? hq) hu

/-- A statement none of whose nodes is own keeps its text. -/
theorem Beside.text_eq (h : Beside base own s) (ha : base.Acyclic)
    (hn : ∀ m, base.Within n m → ¬ own m) : s.text n = base.text n := by
  obtain ⟨w,hw⟩ := exists_tree? ha n
  have hs : s.treeWithin? (base.size + 1) n = some w :=
    treeWithin?_congr hw fun m hm => (h.kept m (hn m hm)).2
  rw [text_of_tree? hw, text_of_tree? (treeWithin?_mono hs (Nat.succ_le_succ h.size_le))]

namespace Store.Copied

theorem beside (h : Copied s n d t) : Beside s (· ∉ s) t where
  size_le := h.extends_.size_le
  kept m hm := by
    have hs := Decidable.of_not_not hm
    exact ⟨hs,h.extends_.read_eq m hs⟩
  closed hp hc := (h.extends_.child_new hc).resolve_left hp

theorem beside_copy (h : Copied s n d t) (hs : s.Sound) :
    Beside t (fun m => m ∈ s ∨ m ∉ t) t where
  size_le := Nat.le_refl _
  kept m hm := ⟨Decidable.of_not_not (not_or.mp hm).2,rfl⟩
  closed {p c} hp hc := by
    have hps : p ∈ s := hp.resolve_right fun hnot => hnot hc.mem
    rw [Child, h.extends_.read_eq p hps] at hc
    exact Or.inl (hs.mem_of_child hc)

theorem not_mem_of_within (h : Copied s n d t) (hw : t.Within d m) : m ∉ s :=
  h.beside.own_of_within h.not_mem hw

end Store.Copied

/-- A statement in which nothing is taken apart can be copied. The copy has the same value, and all
its nodes are new. Whatever is done with nodes of the copy and nodes made later, the nodes in use
before stay as they are. Whatever is done with these and nodes made later, the copy stays as it is.
-/
theorem copy_stands_apart {allowed : Store → Command → Prop} (h : Reachable allowed s)
    (hf : s.Forest) (hn : n ∈ s) (hi : s.Intact n) :
    ∃ d t, Statement.copy n s = .ok d t ∧ (∃ w, s.tree? n = some w ∧ t.tree? d = some w) ∧
      (∀ m, t.Within d m → m ∉ s) ∧ (∀ m ∈ s, t.read m = s.read m) ∧
      (∀ u, Runs (fun v c => c.Handles fun m => v.Within d m ∨ t.Within d m ∨ m ∉ t) t u →
        ∀ m ∈ s, u.read m = s.read m ∧ u.text m = s.text m) ∧
      ∀ u, Runs (fun _ c => c.Handles fun m => m ∈ s ∨ m ∉ t) t u →
        u.text d = t.text d ∧ ∀ m, t.Within d m → u.read m = t.read m := by
  have hs := h.sound
  have ha := hf.acyclic
  obtain ⟨w,hw⟩ := exists_holds ha n
  obtain ⟨d,t,hcopy,he,hc⟩ := Statement.exists_copy hs hn hw ((hs.intact_iff hw).mp hi)
  have hat := he.acyclic ha
  refine ⟨d,t,hcopy,⟨w,hw.tree?,(hc.holds w hw).tree?⟩,fun m hm => hc.not_mem_of_within hm,
    hc.extends_.read_eq,fun u hr m hm => ?_,fun u hr => ?_⟩
  · have hu : Beside s (· ∉ s) u := hr.beside hc.beside fun {v m} hv hm => by
      rcases hm with hm | hm | hm
      · exact hv.own_of_within hc.not_mem hm
      · exact hc.not_mem_of_within hm
      · exact fun hms => hm (he.mem hms)
    have hold : ∀ m ∈ s, ¬ m ∉ s := fun m hm => not_not.mpr hm
    exact ⟨(hu.kept m (hold m hm)).2,
      hu.text_eq ha fun b hb => hold b (hs.mem_of_within hm hb)⟩
  · have hu : Beside t (fun m => m ∈ s ∨ m ∉ t) u := hr.beside (hc.beside_copy hs) fun _ hm => hm
    have hnew : ∀ m, t.Within d m → ¬ (m ∈ s ∨ m ∉ t) := by
      rintro m hm (hms | hmt)
      · exact hc.not_mem_of_within hm hms
      · exact hmt ((he.sound hs).mem_of_within hc.mem hm)
    exact ⟨hu.text_eq hat hnew,fun m hm => (hu.kept m (hnew m hm)).2⟩

/-- A copy of a block around a choice. The choice is taken out of the copy, and, in another run, out
of the original. -/
theorem copy_stands_apart_wrapped : wrapped.Intact ⟨5⟩ ∧
    ∃ t u v, Statement.copy ⟨5⟩ wrapped = .ok ⟨10⟩ t ∧
      (Command.remove ⟨10⟩ (.int 0)).next? t = some u ∧ u ≠ t ∧
      (∀ m ∈ wrapped, u.read m = wrapped.read m ∧ u.text m = wrapped.text m) ∧
      (Command.remove ⟨5⟩ (.int 0)).next? t = some v ∧ v ≠ t ∧
      v.text ⟨10⟩ = t.text ⟨10⟩ ∧ ∀ m, t.Within ⟨10⟩ m → v.read m = t.read m := by
  have hi := intact_wrapped.1
  obtain ⟨d,t,hcopy,_,_,_,hcopied,horiginal⟩ :=
    copy_stands_apart reachable_wrapped forest_wrapped (by decide) hi
  have hok : ∃ t, Statement.copy ⟨5⟩ wrapped = .ok ⟨10⟩ t ∧
      (∃ u, (Command.remove ⟨10⟩ (.int 0)).next? t = some u ∧ u ≠ t) ∧
      (∃ v, (Command.remove ⟨5⟩ (.int 0)).next? t = some v ∧ v ≠ t) ∧
      (Command.remove ⟨10⟩ (.int 0)).Known t ∧ (Command.remove ⟨5⟩ (.int 0)).Known t :=
    ⟨_,rfl,⟨_,rfl,by decide⟩,⟨_,rfl,by decide⟩,by decide,by decide⟩
  obtain ⟨t',ht',⟨u,hu,hut⟩,⟨v,hv,hvt⟩,hku,hkv⟩ := hok
  rw [hcopy] at ht'
  cases ht'
  refine ⟨hi,t,u,v,hcopy,hu,hut,hcopied u ?_,hv,hvt,horiginal v ?_⟩
  · refine .step .refl hku (fun a ha m hm => ?_) hu
    obtain rfl | rfl : a = .statement ⟨10⟩ ∨ a = .int 0 := by simpa [Command.arguments] using ha
    · cases hm
      exact Or.inl (within_refl t _)
    · cases hm
  · refine .step .refl hkv (fun a ha m hm => ?_) hv
    obtain rfl | rfl : a = .statement ⟨5⟩ ∨ a = .int 0 := by simpa [Command.arguments] using ha
    · cases hm
      exact Or.inl (by decide)
    · cases hm

end RobotCode
