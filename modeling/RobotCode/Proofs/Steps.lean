import RobotCode.Command
import RobotCode.Proofs.Ends
import RobotCode.Proofs.Search

/-! # Operations as runs of edits

However an operation ends, also halfway through, it has changed the store by edits alone. This is
proved once for taking over, adding, removing, taking apart and putting together; everything else
is made of these, or only makes new blocks and asks questions. An operation that takes a statement
apart is tame if no output lies below a body.
-/
namespace RobotCode
open Relation
variable {tame : Prop} {σ α β : Type} {view : σ → Store}

/-- However `x` ends, it leaves a store reached by edits, and a result satisfies `Q`. -/
def Leads (tame : Prop) (view : σ → Store) (x : EStateM Fault σ α) (i : σ)
    (Q : α → σ → Prop) : Prop :=
  match x i with
  | .ok a j => Store.Edits tame (view i) (view j) ∧ Q a j
  | .error _ j => Store.Edits tame (view i) (view j)

section Rules
variable {x : EStateM Fault σ α} {f : α → EStateM Fault σ β} {i : σ} {Q : α → σ → Prop}
  {P : β → σ → Prop}

theorem leads_iff_ends : Leads tame view x i Q ↔ Ends (Store.Edits tame) view x i Q := by
  unfold Leads Ends
  cases x i <;> rfl

theorem leads_pure {a : α} (h : Q a i) : Leads tame view (pure a) i Q := ⟨.refl,h⟩

theorem leads_throw {e : Fault} : Leads tame view (throw e) i Q := ReflTransGen.refl

theorem leads_bind (hx : Leads tame view x i Q)
    (hf : ∀ a j, Store.Edits tame (view i) (view j) → Q a j → Leads tame view (f a) j P) :
    Leads tame view (x >>= f) i P :=
  leads_iff_ends.mpr (ends_bind (leads_iff_ends.mp hx) fun a j hj ha =>
    leads_iff_ends.mp (hf a j hj ha))

theorem leads_mono {R : α → σ → Prop} (hx : Leads tame view x i Q)
    (h : ∀ a j, Store.Edits tame (view i) (view j) → Q a j → R a j) :
    Leads tame view x i R :=
  leads_iff_ends.mpr (ends_mono (leads_iff_ends.mp hx) h)

theorem Leads.edits_of_ok {a : α} {j : σ} (h : Leads tame view x i Q) (hx : x i = .ok a j) :
    Store.Edits tame (view i) (view j) := ((leads_iff_ends.mp h).of_ok hx).1

theorem Leads.result_of_ok {a : α} {j : σ} (h : Leads tame view x i Q) (hx : x i = .ok a j) :
    Q a j := ((leads_iff_ends.mp h).of_ok hx).2

theorem Leads.edits_of_error {e : Fault} {j : σ} (h : Leads tame view x i Q)
    (hx : x i = .error e j) : Store.Edits tame (view i) (view j) :=
  (leads_iff_ends.mp h).of_error hx

theorem leads_map {g : α → β} (hx : Leads tame view x i fun a j => P (g a) j) :
    Leads tame view (g <$> x) i P := by
  rw [map_eq_pure_bind]
  exact leads_bind hx fun _ _ _ h => leads_pure h

theorem leads_mapM {xs : List α} {f : α → EStateM Fault σ β}
    (hf : ∀ a ∈ xs, ∀ j, Store.Edits tame (view i) (view j) → Leads tame view (f a) j P)
    (hP : ∀ b j k, P b j → Store.Edits tame (view j) (view k) → P b k) :
    Leads tame view (xs.mapM f) i fun bs j => ∀ b ∈ bs, P b j := by
  have h : Ends (Store.Edits tame) view (xs.mapM f) i
      fun bs j => List.Forall₂ (fun _ b => P b j) xs bs :=
    ends_mapM .refl (fun _ => .refl) (fun a ha j hj => leads_iff_ends.mp (hf a ha j hj))
      fun _ => hP
  refine leads_mono (leads_iff_ends.mpr h) fun bs j _ hbs b hb => ?_
  obtain ⟨_,_,hP⟩ := Store.exists_of_forall₂ hbs.flip hb
  exact hP

theorem leads_forM {xs : List α} {f : α → EStateM Fault σ PUnit}
    (hf : ∀ a ∈ xs, ∀ j, Store.Edits tame (view i) (view j) →
      Leads tame view (f a) j fun _ _ => True) :
    Leads tame view (xs.forM f) i fun _ _ => True := by
  have h := ends_forM (P := fun _ => True) .refl (fun _ => .refl) fun a ha j hj =>
    leads_iff_ends.mp (hf a ha j hj)
  exact leads_mono (leads_iff_ends.mpr h) fun _ _ _ _ => trivial

theorem leads_foldlM {xs : List α} {f : β → α → EStateM Fault σ β} {b : β}
    (hf : ∀ a ∈ xs, ∀ b j, Store.Edits tame (view i) (view j) →
      Leads tame view (f b a) j fun _ _ => True) :
    Leads tame view (xs.foldlM f b) i fun _ _ => True :=
  leads_iff_ends.mpr (ends_foldlM .refl (fun _ => .refl) fun a ha b j hj =>
    leads_iff_ends.mp (hf a ha b j hj))

end Rules

namespace StoreM
variable {s : Store} {P : β → Store → Prop} {Q : α → Store → Prop}

theorem leads_ask {f : Store → Except Fault α} (h : ∀ a, f s = .ok a → Q a s) :
    Leads tame id (ask f) s Q := by
  rw [Leads, ask]
  cases hf : f s with
  | error e => exact ReflTransGen.refl
  | ok a => exact ⟨.refl,h a hf⟩

/-- A question that is answered leaves the store for what comes next. -/
theorem leads_ask_bind {f : Store → Except Fault α} {g : α → StoreM β}
    (h : ∀ a, f s = .ok a → Leads tame id (g a) s P) : Leads tame id (ask f >>= g) s P :=
  leads_bind (leads_ask (Q := fun a t => t = s ∧ f s = .ok a) fun _ ha => ⟨rfl,ha⟩)
    fun a _ _ ⟨ht,ha⟩ => ht ▸ h a ha

theorem leads_fresh_empty {Q : NodeId → Store → Prop} (h : Q s.next (s.push {})) :
    Leads tame id (fresh {}) s Q :=
  ⟨.single (.alloc s),h⟩

theorem leads_write {n : NodeId} {v : Node} {Q : Unit → Store → Prop}
    (h : Store.Edit tame s (s.write n v)) (hq : Q () (s.write n v)) :
    Leads tame id (write n v) s Q :=
  ⟨.single h,hq⟩

theorem leads_of_eq {x y : StoreM α} (h : x s = y s) (hy : Leads tame id y s Q) :
    Leads tame id x s Q := by
  unfold Leads at hy ⊢
  rwa [h]

end StoreM

/-- The statement that an argument is, if it is one. -/
def Argument.node? : Argument → Option NodeId
  | .statement n => some n
  | _ => none

/-- A statement handed over is in use. -/
def Argument.Known (s : Store) (a : Argument) : Prop := ∀ n ∈ a.node?, n ∈ s

instance (s : Store) (a : Argument) : Decidable (a.Known s) :=
  inferInstanceAs (Decidable (∀ n ∈ _, n ∈ s))

theorem Argument.known_statement {s : Store} {n : NodeId} (h : n ∈ s) :
    (Argument.statement n).Known s := by
  intro m e
  cases e
  exact h

theorem Argument.Known.edits {s t : Store} {a : Argument} (h : a.Known s)
    (he : Store.Edits tame s t) : a.Known t := fun n hn => he.mem (h n hn)

namespace Store
variable {s : Store} {a b m n r x y : NodeId}

/-- The store after the state of `n` has gone into a new node. -/
def adopt (s : Store) (n : NodeId) : Store := (s.push {}).transfer n s.next

theorem read_adopt (s : Store) (n m : NodeId) : (s.adopt n).read m =
    if m = n then {} else if m = s.next then s.read n else s.read m := by
  rw [adopt, read_transfer, read_push_empty, read_push_empty]

theorem read_adopt_next (hn : n ∈ s) : (s.adopt n).read s.next = s.read n := by
  rw [read_adopt, if_neg (ne_next hn).symm, if_pos rfl]

theorem read_adopt_of_ne (hn : m ≠ n) (hm : m ∈ s) : (s.adopt n).read m = s.read m := by
  rw [read_adopt, if_neg hn, if_neg (ne_next hm)]

theorem next_mem_push (s : Store) : s.next ∈ s.push {} := mem_push.mpr (Or.inr rfl)

theorem mem_adopt (hn : n ∈ s) : m ∈ s.adopt n ↔ m ∈ s ∨ m = s.next := by
  rw [← mem_push (c := {}), mem_iff, mem_iff, adopt,
    size_transfer (mem_push.mpr (Or.inl hn)) s.next_mem_push]

theorem Sound.below_adopt (hs : s.Sound) (h : (s.adopt n).Below x y) :
    s.Below x y ∨ x = s.next ∧ s.Below n y := by
  have hb := below_transfer h
  rw [Below, Within, child_push_empty_eq] at hb
  rcases hb with hb | ⟨hx,hy⟩
  · exact Or.inl hb
  · exact Or.inr ⟨(hs.isRoot_next.eq_of_within hx).symm,hy⟩

theorem Sound.isRoot_adopt (h : s.IsRoot m) : (s.adopt n).IsRoot m := by
  intro p hp
  obtain ⟨_,hp⟩ := child_transfer.mp hp
  split at hp <;> exact h _ (child_push_empty.mp hp)

theorem Sound.edits_adopt (hs : s.Sound) (hn : n ∈ s) : Edits tame s (s.adopt n) := by
  refine ReflTransGen.tail (.single (.alloc s)) (.transfer ?_ s.next_mem_push ?_ fun _ => ?_)
  · exact mem_push.mpr (Or.inl hn)
  · rw [read_push_empty, read_next]
  · rw [Below, child_push_empty_eq]
    exact hs.isRoot_next.not_below

end Store

namespace Label
variable {l : Label} {g : Guarded}

theorem eq_block (h : l.awaited? = none) (hk : l.kind = .block) : l = .block := by
  cases l with
  | block => rfl
  | guarded g c => exact absurd hk g.kind_ne_block
  | call name => cases hk
  | pending k => cases h

theorem eq_guarded (h : l.awaited? = none) (hk : l.kind = g.kind) : ∃ c, l = .guarded g c := by
  cases l with
  | block => exact absurd hk.symm g.kind_ne_block
  | guarded i c => exact ⟨c,by rw [Guarded.kind_injective hk]⟩
  | call name => exact absurd hk.symm g.kind_ne_call
  | pending k => cases h

theorem eq_call (h : l.awaited? = none) (hk : l.kind = .call) : ∃ name, l = .call name := by
  cases l with
  | block => cases hk
  | guarded i c => exact absurd hk i.kind_ne_call
  | call name => exact ⟨name,rfl⟩
  | pending k => cases h

end Label

namespace Statement
open StoreM Store
variable {s : Store} {n r : NodeId} {a pos test : Argument} {g : Guarded}

theorem takeOver_cases (r : NodeId) (ha : a.Known s) :
    (∃ n, s.insertable r a = .ok n ∧ n ∈ s ∧ takeOver r a s = .ok s.next (s.adopt n)) ∨
    ∃ e, s.insertable r a = .error e ∧ takeOver r a s = .error e s := by
  cases h : s.insertable r a with
  | error e => exact Or.inr ⟨e,rfl,takeOver_of_error h⟩
  | ok n =>
    obtain ⟨rfl,_,hp,_⟩ := of_insertable h
    have hn := ha n rfl
    refine Or.inl ⟨n,rfl,hn,?_⟩
    exact takeOver_of_ok h hn hp

theorem leads_takeOver (hs : s.Sound) (r : NodeId) (ha : a.Known s) :
    Leads tame id (takeOver r a) s fun o t =>
      ∃ n, s.insertable r a = .ok n ∧ n ∈ s ∧ o = s.next ∧ t = s.adopt n := by
  unfold Leads
  rcases takeOver_cases r ha with ⟨n,hi,hn,h⟩ | ⟨e,_,h⟩
  · rw [h]
    exact ⟨hs.edits_adopt hn,n,hi,hn,rfl,rfl⟩
  · rw [h]

theorem not_within_adopt (hs : s.Sound) (hr : r ∈ s) (hi : s.insertable r a = .ok n) :
    ¬ (s.adopt n).Within s.next r := by
  intro hw
  rcases within_iff.mp hw with e | hb
  · exact ne_next hr e
  · rcases hs.below_adopt hb with hb | ⟨_,hb⟩
    · exact s.next_not_mem hb.mem
    · exact (of_insertable hi).2.2.2 hb

theorem mem_of_mem_insertIdx {α : Type} {l : List α} {x y : α} {i : ℕ}
    (h : y ∈ l.insertIdx i x) : y = x ∨ y ∈ l := by
  by_cases hi : i ≤ l.length
  · exact (List.mem_insertIdx hi).mp h
  · rw [List.insertIdx_of_length_lt (by omega)] at h
    exact Or.inr h

theorem nodup_insertIdx {α : Type} {l : List α} {x : α} (hl : l.Nodup) (hx : x ∉ l) (i : ℕ) :
    (l.insertIdx i x).Nodup := by
  by_cases hi : i ≤ l.length
  · exact (List.perm_insertIdx x l hi).nodup_iff.mpr (List.nodup_cons.mpr ⟨hx,hl⟩)
  · rwa [List.insertIdx_of_length_lt (by omega)]

theorem leads_place {pos : Argument} {i? : Option ℕ} :
    Leads tame id (place pos i?) s fun _ t => t = s := by
  cases i? with
  | none => exact leads_throw
  | some i => exact leads_pure rfl

theorem leads_add (hs : s.Sound) (hr : r ∈ s) (ha : a.Known s) :
    Leads tame id (add r pos a) s fun _ _ => True := by
  unfold add
  refine leads_ask_bind fun v hv => leads_ask_bind fun i? _ => ?_
  obtain ⟨hv,hk⟩ := expect_eq_ok_iff.mp hv
  obtain ⟨hp,rfl⟩ := assembled_eq_ok_iff.mp hv
  have hl := Label.eq_block hp hk
  refine leads_bind (leads_takeOver hs r ha) fun o t he ⟨n,hi,hn,ho,ht⟩ => ?_
  refine leads_bind leads_place fun i _ _ hj => ?_
  subst hj ht ho
  have hrt : (s.adopt n).read r = s.read r := read_adopt_of_ne (of_insertable hi).2.1.symm hr
  have hnext : s.next ∉ (s.read r).children := fun hc => s.next_not_mem (hs.mem_of_child hc)
  have hlt : ((s.adopt n).read r).label = .block := by rw [hrt, hl]
  refine leads_of_eq (modify_children hlt) (leads_write (.write (he.mem hr) hlt trivial
    (nodup_insertIdx (hs.nodup r) hnext i) fun c hc => ?_) trivial)
  rcases mem_of_mem_insertIdx hc with rfl | hc
  · refine Or.inr ⟨(mem_adopt hn).mpr (Or.inr rfl),Sound.isRoot_adopt hs.isRoot_next,?_⟩
    exact not_within_adopt hs hr hi
  · exact Or.inl ⟨hlt.symm,by rwa [Child, hrt]⟩

theorem leads_remove (hs : s.Sound) (hr : r ∈ s) :
    Leads tame id (remove r pos) s fun c t => c ∈ t := by
  unfold remove
  refine leads_ask_bind fun v hv => leads_ask_bind fun i? _ => ?_
  obtain ⟨hv,hk⟩ := expect_eq_ok_iff.mp hv
  obtain ⟨hp,rfl⟩ := assembled_eq_ok_iff.mp hv
  have hl := Label.eq_block hp hk
  refine leads_bind leads_place fun i t _ ht => ?_
  rw [ht]
  split
  next => exact leads_throw
  next child hchild =>
    have hsub : ∀ c ∈ (s.read r).children.eraseIdx i, s.Child r c := fun c hc =>
      List.mem_of_mem_eraseIdx hc
    have hw : Store.Edit tame s (s.write r ⟨.block,(s.read r).children.eraseIdx i⟩) :=
      .write hr hl trivial ((hs.nodup r).sublist (List.eraseIdx_sublist ..)) fun c hc =>
        Or.inl ⟨hl.symm,hsub c hc⟩
    refine leads_bind (leads_of_eq (modify_children hl)
      (leads_write (Q := fun _ _ => True) hw trivial)) fun _ t ht _ => leads_pure ?_
    exact ht.mem (hs.mem_of_child (List.mem_of_getElem? hchild))

theorem leads_guardedParts : Leads tame id (guardedParts g r) s fun p t =>
    t = s ∧ s.read r = ⟨.guarded g p.1,p.2⟩ := by
  unfold guardedParts
  refine leads_ask_bind fun v hv => ?_
  obtain ⟨hv,hk⟩ := expect_eq_ok_iff.mp hv
  obtain ⟨hp,rfl⟩ := assembled_eq_ok_iff.mp hv
  obtain ⟨c,hl⟩ := Label.eq_guarded hp hk
  rw [hl]
  refine leads_pure ⟨rfl,?_⟩
  rw [← hl]

theorem leads_requireDistinct {v : Violation} {ns : List NodeId} :
    Leads tame id (requireDistinct v ns) s fun _ t => t = s ∧ ns.Nodup := by
  unfold requireDistinct
  split
  next h => exact leads_pure ⟨rfl,h⟩
  next => exact leads_throw

theorem map_fst_zip_sublist {α β : Type} (xs : List α) (ys : List β) :
    ((xs.zip ys).map Prod.fst).Sublist xs := by
  induction xs generalizing ys with
  | nil => exact List.nil_sublist _
  | cons x xs ih =>
    cases ys with
    | nil => exact List.nil_sublist _
    | cons y ys => exact (ih ys).cons_cons x

theorem of_emptyOutput (h : s.emptyOutput a = .ok n) : a = .statement n ∧ s.read n = {} := by
  cases a with
  | statement m =>
    rw [emptyOutput_eq] at h
    obtain ⟨v,hv,h⟩ := bind_eq_ok_iff.mp h
    split at h
    next he =>
      cases h
      exact ⟨rfl,(assembled_eq_ok_iff.mp hv).2.trans he⟩
    next => cases h
  | _ => cases h

theorem leads_move {source target : NodeId} (hm : source ∈ s) (ht : target ∈ s)
    (he : s.read target = {}) (hb : tame → ¬ s.Below source target) :
    Leads tame id (move source target) s fun _ t => t = s.transfer source target := by
  unfold Leads
  cases hp : (s.read source).label.awaited? with
  | some k => rw [move_of_some hp]
  | none =>
    rw [move_of_none hp]
    exact ⟨.single (.transfer hm ht he hb),rfl⟩

/-- Several moves one after another. No target below a source at the outset is enough: a move makes
only nodes reachable that were below its source. What is no target stays, or is emptied. -/
theorem leads_moves {ps : List (NodeId × NodeId)} (hd : (ps.map Prod.fst).Nodup)
    (hm : ∀ p ∈ ps, p.1 ∈ s ∧ p.2 ∈ s) (he : ∀ p ∈ ps, s.read p.1 = {})
    (hb : tame → ∀ p ∈ ps, ∀ q ∈ ps, ¬ s.Below p.2 q.1) :
    Leads tame id (ps.forM fun p => move p.2 p.1) s fun _ t => ∀ m ∉ ps.map Prod.fst,
      t.read m = s.read m ∨ m ∈ ps.map Prod.snd ∧ t.read m = {} := by
  rw [List.forM_eq_forM]
  induction ps generalizing s with
  | nil => exact leads_pure fun _ _ => Or.inl rfl
  | cons p ps ih =>
    rw [List.forM_cons]
    have hp := List.mem_cons_self (a := p) (l := ps)
    have hin : ∀ q ∈ ps, q ∈ p :: ps := fun q hq => List.mem_cons_of_mem _ hq
    refine leads_bind (leads_move (hm p hp).2 (hm p hp).1 (he p hp) fun h => hb h p hp p hp) ?_
    rintro _ _ ht rfl
    rw [List.map_cons, List.nodup_cons] at hd
    have hmem : ∀ q ∈ ps, q.1 ∈ s.transfer p.2 p.1 ∧ q.2 ∈ s.transfer p.2 p.1 := fun q hq =>
      ⟨ht.mem (hm q (hin q hq)).1,ht.mem (hm q (hin q hq)).2⟩
    have hempty : ∀ q ∈ ps, (s.transfer p.2 p.1).read q.1 = {} := by
      intro q hq
      have hne : q.1 ≠ p.1 := fun h => hd.1 (h ▸ List.mem_map_of_mem hq)
      rw [read_transfer, if_neg hne, he q (hin q hq)]
      split <;> rfl
    have hclear : tame → ∀ q ∈ ps, ∀ q' ∈ ps, ¬ (s.transfer p.2 p.1).Below q.2 q'.1 := by
      intro h q hq q' hq' hbelow
      rcases below_transfer hbelow with hbelow | ⟨_,hbelow⟩
      · exact hb h q (hin q hq) q' (hin q' hq') hbelow
      · exact hb h p hp q' (hin q' hq') hbelow
    have hrest := ih hd.2 hmem hempty hclear
    refine leads_mono hrest fun _ u _ hu m hm => ?_
    rw [List.map_cons, List.mem_cons, not_or] at hm
    rw [List.map_cons, List.mem_cons]
    have hread := hu m hm.2
    rw [read_transfer, if_neg hm.1] at hread
    split at hread
    next hmp => exact Or.inr ⟨Or.inl hmp,hread.elim id And.right⟩
    next => exact hread.imp_right fun h => ⟨Or.inr h.1,h.2⟩

/-- No statement handed over as an output lies below a body of `r`. -/
def OutputsClear (s : Store) (r : NodeId) (outputs : List Argument) : Prop :=
  ∀ n, .statement n ∈ outputs → ∀ b, s.Body r b → ¬ s.Below b n

theorem leads_disassemble {outputs : List Argument} (hs : s.Sound) (hr : r ∈ s)
    (ho : ∀ a ∈ outputs, a.Known s) (hb : tame → OutputsClear s r outputs)
    (hl : tame → ¬ s.Body r r) : Leads tame id (disassemble g r outputs) s fun _ _ => True := by
  unfold disassemble
  refine leads_bind leads_guardedParts fun ⟨c,bodies⟩ t _ ⟨ht,hv⟩ => ?_
  rw [ht]
  clear ht
  refine leads_ask_bind fun outs houts => ?_
  have hall : ∀ o ∈ outs, .statement o ∈ outputs ∧ s.read o = {} := by
    intro o hm
    obtain ⟨a,ha,h⟩ := exists_of_forall₂ (mapM_eq_ok_iff.mp houts).flip hm
    obtain ⟨rfl,he⟩ := of_emptyOutput h
    exact ⟨ha,he⟩
  refine leads_bind leads_requireDistinct fun _ t _ ⟨ht,hd⟩ => ?_
  rw [ht]
  clear ht
  have hzip : ∀ p ∈ outs.zip bodies, p.1 ∈ outs ∧ s.Body r p.2 := fun p hp => by
    refine ⟨(List.of_mem_zip hp).1,?_,g,c,by rw [hv]⟩
    rw [Child, hv]
    exact (List.of_mem_zip hp).2
  have hmoves : Leads tame id ((outs.zip bodies).forM fun p => move p.2 p.1) s _ := leads_moves
    (hd.sublist (map_fst_zip_sublist outs bodies))
    (fun p hp => ⟨ho _ (hall _ (hzip p hp).1).1 _ rfl,hs.mem_of_child (hzip p hp).2.1⟩)
    (fun p hp => (hall _ (hzip p hp).1).2)
    fun h p hp q hq => hb h _ (hall _ (hzip q hq).1).1 _ (hzip p hp).2
  refine leads_bind hmoves fun _ t ht hread => ?_
  have hrout : r ∉ (outs.zip bodies).map Prod.fst := by
    intro hr'
    obtain ⟨p,hp,rfl⟩ := List.mem_map.mp hr'
    have he := (hall _ (hzip p hp).1).2
    rw [hv] at he
    cases he
  have hyields : (t.read r).label.Yields tame (.pending g.kind) := by
    rcases hread r hrout with h | ⟨hr',h⟩
    · rw [h, hv]
      exact Or.inl rfl
    · obtain ⟨p,hp,rfl⟩ := List.mem_map.mp hr'
      rw [h]
      exact Or.inr ⟨fun htame => hl htame (hzip p hp).2,rfl⟩
  rw [modify_apart]
  refine leads_bind (Q := fun _ _ => True) (leads_write (.write (ht.mem hr) hyields
    ⟨g.kind_ne_block,rfl⟩ List.nodup_nil (List.forall_mem_nil _)) trivial)
    fun _ _ _ _ => leads_pure trivial

/-- What taking over a list of arguments leaves as it was, besides what it makes. -/
theorem leads_takeOvers {bodies : List Argument} (hs : s.Sound) (hr : r ∈ s)
    (ha : ∀ a ∈ bodies, a.Known s) :
    Leads tame id (bodies.mapM (takeOver r)) s fun os t =>
      os.length = bodies.length ∧ os.Nodup ∧
      (∀ o ∈ os, o ∉ s ∧ o ∈ t ∧ t.IsRoot o ∧ ¬ t.Within o r) ∧
      ∀ m ∈ s, s.IsRoot m → ¬ s.Within m r → t.IsRoot m ∧ ¬ t.Within m r := by
  induction bodies generalizing s with
  | nil => exact leads_pure ⟨rfl,List.nodup_nil,by simp,fun _ _ hm hw => ⟨hm,hw⟩⟩
  | cons a bodies ih =>
    rw [List.mapM_cons]
    refine leads_bind (leads_takeOver hs r (ha a (List.mem_cons_self ..))) fun o t ht h => ?_
    obtain ⟨n,hi,hn,rfl,rfl⟩ := h
    have hnext : s.next ∈ s.adopt n := (mem_adopt hn).mpr (Or.inr rfl)
    have hrest := ih (ht.sound hs) (ht.mem hr) fun b hb =>
      (ha b (List.mem_cons_of_mem _ hb)).edits ht
    refine leads_bind hrest fun os u hu ⟨hlen,hd,hos,hkeep⟩ => leads_pure ?_
    refine ⟨by rw [List.length_cons, List.length_cons, hlen],?_,?_,?_⟩
    · exact List.nodup_cons.mpr ⟨fun h => (hos _ h).1 hnext,hd⟩
    · intro o ho
      rcases List.mem_cons.mp ho with rfl | ho
      · have hk := hkeep s.next hnext (Sound.isRoot_adopt hs.isRoot_next)
          (not_within_adopt hs hr hi)
        exact ⟨s.next_not_mem,hu.mem hnext,hk⟩
      · exact ⟨fun h => (hos o ho).1 (ht.mem h),(hos o ho).2⟩
    · intro m hm hroot hw
      refine hkeep m (ht.mem hm) (Sound.isRoot_adopt hroot) fun hw' => ?_
      rcases within_iff.mp hw' with rfl | hb
      · exact hw (within_refl s r)
      · rcases hs.below_adopt hb with hb | ⟨rfl,_⟩
        · exact hw hb.within
        · exact s.next_not_mem hm

theorem leads_assemble {bodies : List Argument} (hs : s.Sound) (hr : r ∈ s)
    (ha : ∀ a ∈ bodies, a.Known s) (hlen : bodies.length = g.arity) :
    Leads tame id (assemble g r test bodies) s fun _ _ => True := by
  unfold assemble
  refine leads_ask_bind fun _ _ => leads_ask_bind fun c _ => leads_ask_bind fun parts _ => ?_
  refine leads_bind leads_requireDistinct fun _ t _ ⟨ht,_⟩ => ?_
  rw [ht]
  clear ht
  refine leads_bind (leads_takeOvers hs hr ha) fun os t ht ⟨hos,hd,hroots,_⟩ => ?_
  rw [put_guarded]
  refine leads_write (.write (ht.mem hr) trivial (hos.trans hlen) hd fun o ho => ?_) trivial
  exact Or.inr (hroots o ho).2

theorem leads_disassembleCall (hs : s.Sound) (hr : r ∈ s) :
    Leads tame id (disassembleCall r) s fun _ _ => True := by
  unfold disassembleCall
  refine leads_ask_bind fun v hv => ?_
  obtain ⟨hv,hk⟩ := expect_eq_ok_iff.mp hv
  obtain ⟨hp,rfl⟩ := assembled_eq_ok_iff.mp hv
  obtain ⟨name,hl⟩ := Label.eq_call hp hk
  have hshape := hs.shaped r
  rw [Node.Shaped, hl] at hshape
  rw [hl]
  refine leads_bind (Q := fun _ _ => True) (leads_of_eq (modify_uncalled s r)
    (leads_write (.write hr ?_ ⟨by decide,hshape⟩ (hs.nodup r) ?_) trivial))
    fun _ _ _ _ => leads_pure trivial
  · rw [hl]
    exact Or.inl rfl
  · rw [show (s.read r).children = [] from hshape]
    exact List.forall_mem_nil _

theorem leads_put_call {name : String} (hr : r ∈ s) :
    Leads tame id (put r (.call name)) s fun _ _ => True := by
  rw [put_call]
  exact leads_write (.write hr trivial rfl List.nodup_nil (List.forall_mem_nil _)) trivial

theorem leads_assembleCall {name : Argument} (hr : r ∈ s) :
    Leads tame id (assembleCall r name) s fun _ _ => True := by
  unfold assembleCall
  refine leads_ask_bind fun _ _ => ?_
  split
  next => exact leads_put_call hr
  next => exact leads_ask fun _ _ => trivial

end Statement
end RobotCode
