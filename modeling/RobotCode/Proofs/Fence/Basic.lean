import RobotCode.Proofs.Effects

/-! # Fences

Operations write to new nodes, and to nodes that they have been handed or that lie below such nodes.
Before they write to one they have made sure that it is assembled, or that it is a statement ready
to be put together. A fence is an invariant of the store that such writes cannot break. This module
shows that no operation on single statements breaks a fence, however it ends, and that what it takes
in was within the fence.
-/
namespace RobotCode
open Store
open List (Forall₂)
variable {s t : Store} {n r : NodeId} {a pos test : Argument} {g : Guarded}

/-- `inv` holds as long as nothing is written but new nodes and `own` ones. Of the nodes `given` to
operations, and of those below them, the assembled ones are own. -/
structure Fence where
  inv : Store → Prop
  given : NodeId → Prop
  own : NodeId → Prop
  given_of_own : ∀ {n}, own n → given n
  own_next : ∀ {s}, inv s → own s.next
  own_of_assembled : ∀ {s n}, inv s → given n → (s.read n).label.awaited? = none → own n
  given_of_child : ∀ {s p c}, inv s → given p → s.Child p c → given c
  inv_push : ∀ {s}, inv s → inv (s.push {})
  inv_put : ∀ {s n c}, inv s → own n → (∀ m ∈ c.children, given m) → inv (s.put n c)

namespace Fence
variable (F : Fence)

/-- A statement handed over is given. -/
def Gives (a : Argument) : Prop := ∀ n ∈ a.node?, F.given n

/-- A statement handed over is own. -/
def Owns (a : Argument) : Prop := ∀ n ∈ a.node?, F.own n

/-- However `x` ends, it does not break the fence, and a result satisfies `Q`. -/
def Keeps {σ α : Type} (view : σ → Store) (x : EStateM Fault σ α) (i : σ) (Q : α → Prop) : Prop :=
  Ends (fun _ t => F.inv t) view x i fun a _ => Q a

instance : IsTrans Store fun _ t => F.inv t := ⟨fun _ _ _ _ h => h⟩

variable {F}

theorem gives_statement (h : F.given n) : F.Gives (.statement n) := by
  intro m hm
  cases hm
  exact h

theorem owns_statement (h : F.own n) : F.Owns (.statement n) := by
  intro m hm
  cases hm
  exact h

section Rules
variable {σ α β : Type} {view : σ → Store} {x : EStateM Fault σ α} {f : α → EStateM Fault σ β}
  {i : σ} {Q : α → Prop} {P : β → Prop}

theorem keeps_pure {a : α} (hi : F.inv (view i)) (h : Q a) : F.Keeps view (pure a) i Q :=
  ends_pure hi h

theorem keeps_throw {e : Fault} (hi : F.inv (view i)) : F.Keeps view (throw e) i Q := ends_throw hi

theorem keeps_mono {Q' : α → Prop} (hx : F.Keeps view x i Q) (h : ∀ a, Q a → Q' a) :
    F.Keeps view x i Q' := ends_mono hx fun a _ _ => h a

theorem keeps_bind (hx : F.Keeps view x i Q)
    (hf : ∀ a j, F.inv (view j) → Q a → F.Keeps view (f a) j P) : F.Keeps view (x >>= f) i P :=
  ends_bind hx hf

theorem keeps_map {g : α → β} (hx : F.Keeps view x i fun a => P (g a)) :
    F.Keeps view (g <$> x) i P := by
  rw [map_eq_pure_bind]
  exact keeps_bind hx fun _ _ hj h => keeps_pure hj h

theorem keeps_mapM {P : α → β → Prop} (xs : List α) (hi : F.inv (view i))
    (hf : ∀ a ∈ xs, ∀ j, F.inv (view j) → F.Keeps view (f a) j (P a)) :
    F.Keeps view (xs.mapM f) i (Forall₂ P xs) :=
  ends_mapM hi id hf fun _ _ _ _ h _ => h

theorem keeps_forM {xs : List α} {f : α → EStateM Fault σ PUnit} {P : α → Prop}
    (hi : F.inv (view i)) (hf : ∀ a ∈ xs, ∀ j, F.inv (view j) → F.Keeps view (f a) j fun _ => P a) :
    F.Keeps view (xs.forM f) i fun _ => ∀ a ∈ xs, P a :=
  ends_forM hi id hf

theorem keeps_foldlM {xs : List α} {f : β → α → EStateM Fault σ β} {b : β} (hi : F.inv (view i))
    (hf : ∀ a ∈ xs, ∀ b j, F.inv (view j) → F.Keeps view (f b a) j fun _ => True) :
    F.Keeps view (xs.foldlM f b) i fun _ => True :=
  ends_foldlM hi id hf

theorem forall_mem_of_forall₂ {xs : List α} {ys : List β}
    (h : Forall₂ (fun a b => P b ∧ Q a) xs ys) : (∀ b ∈ ys, P b) ∧ ∀ a ∈ xs, Q a := by
  refine ⟨fun b hb => ?_,fun a ha => ?_⟩
  · obtain ⟨_,_,hP,_⟩ := exists_of_forall₂ h.flip hb
    exact hP
  · obtain ⟨_,_,_,hQ⟩ := exists_of_forall₂ h ha
    exact hQ

end Rules

section Store
open StoreM
variable {α β : Type} {Q : α → Prop} {P : β → Prop}

theorem keeps_ask {f : Store → Except Fault α} (hi : F.inv s) (h : ∀ a, f s = .ok a → Q a) :
    F.Keeps id (ask f) s Q := by
  unfold Keeps Ends ask
  cases hf : f s with
  | error e => exact hi
  | ok a => exact ⟨hi,h a hf⟩

theorem keeps_ask_bind {f : Store → Except Fault α} {g : α → StoreM β} (hi : F.inv s)
    (h : ∀ a, f s = .ok a → F.Keeps id (g a) s P) : F.Keeps id (ask f >>= g) s P := by
  have hask : Ends (fun _ t => F.inv t) id (ask f) s fun a t => t = s ∧ f s = .ok a := by
    unfold Ends ask
    cases hf : f s with
    | error e => exact hi
    | ok a => exact ⟨hi,rfl,rfl⟩
  exact ends_bind hask fun a _ _ ⟨ht,ha⟩ => ht ▸ h a ha

theorem keeps_fresh (hi : F.inv s) : F.Keeps id (fresh {}) s F.own := ⟨F.inv_push hi,F.own_next hi⟩

theorem keeps_put {c : Cell} (hi : F.inv s) (hn : F.own n) (hc : ∀ m ∈ c.children, F.given m) :
    F.Keeps id (put n c) s fun _ => True := ⟨F.inv_put hi hn hc,trivial⟩

theorem keeps_modify {f : Cell → Cell} (hi : F.inv s) (hn : F.own n)
    (hf : ∀ m ∈ (f (s.cell n)).children, F.given m) : F.Keeps id (modify n f) s fun _ => True :=
  ⟨F.inv_put hi hn hf,trivial⟩

theorem keeps_move {source target : NodeId} (hi : F.inv s) (hs : F.given source)
    (ht : F.own target) : F.Keeps id (move source target) s fun _ => True := by
  unfold move
  refine keeps_ask_bind hi fun c hc => ?_
  obtain ⟨hp,rfl⟩ := fields_eq_ok_iff.mp hc
  refine keeps_bind (keeps_put hi ht fun _ hm => F.given_of_child hi hs hm) fun _ u hu _ => ?_
  exact keeps_put hu (F.own_of_assembled hi hs hp) nofun

theorem keeps_takeOver (hi : F.inv s) (ha : F.Gives a) :
    F.Keeps id (takeOver r a) s fun o => F.own o ∧ F.Owns a := by
  unfold takeOver
  refine keeps_ask_bind hi fun n hn => ?_
  obtain ⟨rfl,_,hp,_⟩ := of_insertable hn
  have hgiven := ha n rfl
  have hown : F.Owns (.statement n) := owns_statement (F.own_of_assembled hi hgiven hp)
  refine keeps_bind (keeps_fresh hi) fun o t ht ho => ?_
  exact keeps_bind (keeps_move ht hgiven ho) fun _ u hu _ => keeps_pure hu ⟨ho,hown⟩

end Store

section Kernel
open Statement StoreM

theorem of_expect {k : Kind} {v : Node} (hi : F.inv s) (hr : F.given r)
    (h : s.expect k r = .ok v) : F.own r ∧ ∀ c ∈ v.children, F.given c := by
  obtain ⟨hp,rfl⟩ := assembled_eq_ok_iff.mp (expect_eq_ok_iff.mp h).1
  exact ⟨F.own_of_assembled hi hr hp,fun c hc => F.given_of_child hi hr hc⟩

theorem keeps_place {i? : Option ℕ} (hi : F.inv s) :
    F.Keeps id (place pos i?) s fun _ => True := by
  cases i? with
  | none => exact keeps_throw hi
  | some i => exact keeps_pure hi trivial

theorem keeps_add (hi : F.inv s) (hr : F.given r) (ha : F.Gives a) :
    F.Keeps id (add r pos a) s fun _ => F.Owns a := by
  unfold add
  refine keeps_ask_bind hi fun v hv => keeps_ask_bind hi fun i? _ => ?_
  obtain ⟨hown,hchildren⟩ := of_expect hi hr hv
  refine keeps_bind (keeps_takeOver hi ha) fun o t ht ⟨ho,hoa⟩ => ?_
  refine keeps_bind (keeps_place ht) fun i u hu _ => ?_
  refine keeps_mono (keeps_modify hu hown fun c hc => ?_) fun _ _ => hoa
  rcases mem_of_mem_insertIdx hc with rfl | hc
  · exact F.given_of_own ho
  · exact hchildren c hc

theorem keeps_remove (hi : F.inv s) (hr : F.given r) :
    F.Keeps id (remove r pos) s F.given := by
  unfold remove
  refine keeps_ask_bind hi fun v hv => keeps_ask_bind hi fun i? _ => ?_
  obtain ⟨hown,hchildren⟩ := of_expect hi hr hv
  refine keeps_bind (keeps_place hi) fun i t ht _ => ?_
  split
  next => exact keeps_throw ht
  next child hchild =>
    refine keeps_bind (keeps_modify ht hown fun c hc => hchildren c (List.mem_of_mem_eraseIdx hc)) ?_
    exact fun _ u hu _ => keeps_pure hu (hchildren child (List.mem_of_getElem? hchild))

theorem keeps_requireDistinct {v : Violation} {ns : List NodeId} (hi : F.inv s) :
    F.Keeps id (requireDistinct v ns) s fun _ => True := by
  unfold requireDistinct
  split
  next => exact keeps_pure hi trivial
  next => exact keeps_throw hi

theorem keeps_guardedParts (hi : F.inv s) (hr : F.given r) :
    F.Keeps id (guardedParts g r) s fun p => F.own r ∧ ∀ b ∈ p.2, F.given b := by
  unfold guardedParts
  refine keeps_ask_bind hi fun v hv => ?_
  split
  next => exact keeps_pure hi (of_expect hi hr hv)
  next => exact keeps_throw hi

theorem owns_of_emptyOutputs {outputs : List Argument} {outs : List NodeId} (hi : F.inv s)
    (ho : ∀ a ∈ outputs, F.Gives a) (h : outputs.mapM s.emptyOutput = .ok outs) :
    (∀ o ∈ outs, F.own o) ∧ ∀ a ∈ outputs, F.Owns a := by
  refine forall_mem_of_forall₂ ((forall₂_with_mem (mapM_eq_ok_iff.mp h)).imp fun a o ⟨ha,hao⟩ => ?_)
  obtain ⟨rfl,he⟩ := of_emptyOutput hao
  have hown := F.own_of_assembled hi (ho _ ha o rfl) (by rw [he]; rfl)
  exact ⟨hown,owns_statement hown⟩

theorem keeps_disassemble {outputs : List Argument} (hi : F.inv s) (hr : F.given r)
    (ho : ∀ a ∈ outputs, F.Gives a) :
    F.Keeps id (disassemble g r outputs) s fun _ => F.own r ∧ ∀ a ∈ outputs, F.Owns a := by
  unfold disassemble
  refine keeps_bind (keeps_guardedParts hi hr) fun ⟨c,bodies⟩ t ht ⟨hown,hbodies⟩ => ?_
  refine keeps_ask_bind ht fun outs houts => ?_
  obtain ⟨houts,howns⟩ := owns_of_emptyOutputs ht ho houts
  refine keeps_bind (keeps_requireDistinct ht) fun _ u hu _ => ?_
  have hmoves : F.Keeps id ((outs.zip bodies).forM fun p => move p.2 p.1) u
      fun _ => ∀ p ∈ outs.zip bodies, True := by
    refine keeps_forM hu fun p hp v hv => ?_
    exact keeps_move hv (hbodies _ (List.of_mem_zip hp).2) (houts _ (List.of_mem_zip hp).1)
  refine keeps_bind hmoves fun _ v hv _ => ?_
  refine keeps_bind (keeps_modify hv hown nofun) fun _ w hw _ => ?_
  exact keeps_pure hw ⟨hown,howns⟩

theorem keeps_disassembleCall (hi : F.inv s) (hr : F.given r) :
    F.Keeps id (disassembleCall r) s fun _ => F.own r := by
  unfold disassembleCall
  refine keeps_ask_bind hi fun v hv => ?_
  obtain ⟨hown,_⟩ := of_expect hi hr hv
  have hchildren : ∀ m ∈ (s.cell r).children, F.given m := fun _ hm => F.given_of_child hi hr hm
  split
  next => exact keeps_bind (keeps_modify hi hown hchildren) fun _ t ht _ => keeps_pure ht hown
  next => exact keeps_throw hi

theorem keeps_assembleCall (hi : F.inv s) (hr : F.own r) (name : Argument) :
    F.Keeps id (assembleCall r name) s fun _ => True := by
  unfold assembleCall
  refine keeps_ask_bind hi fun _ _ => ?_
  split
  next => exact keeps_put hi hr nofun
  next => exact keeps_ask hi fun _ _ => trivial

end Kernel
end Fence

namespace Statement
open StoreM

/-- What is done to put a statement together before the statement itself is written. -/
def gather (g : Guarded) (r : NodeId) (test : Argument) (bodies : List Argument) :
    StoreM (Condition × List NodeId) := do
  ask (·.ready g.kind r)
  let c ← ask fun s => testOf s.text test
  let parts ← ask fun s => bodies.mapM (s.insertable r)
  requireDistinct .bodiesNotDistinct parts
  let owned ← bodies.mapM (takeOver r)
  return (c,owned)

theorem assemble_eq_gather (g : Guarded) (r : NodeId) (test : Argument) (bodies : List Argument) :
    assemble g r test bodies =
      gather g r test bodies >>= fun p => put r (.guarded g p.1 p.2) := by
  simp only [assemble, gather, bind_assoc, pure_bind]

end Statement

namespace Fence
open Statement StoreM
variable {F : Fence} {bodies : List Argument}

/-- The receiver plays no part until it is written. -/
theorem keeps_gather (hi : F.inv s) (hb : ∀ a ∈ bodies, F.Gives a) :
    F.Keeps id (gather g r test bodies) s
      fun p => (∀ o ∈ p.2, F.own o) ∧ ∀ a ∈ bodies, F.Owns a := by
  unfold gather
  refine keeps_ask_bind hi fun _ _ => keeps_ask_bind hi fun c _ => keeps_ask_bind hi fun _ _ => ?_
  refine keeps_bind (keeps_requireDistinct hi) fun _ t ht _ => ?_
  have htake := keeps_mapM (P := fun a o => F.own o ∧ F.Owns a) bodies ht fun a ha u hu =>
    keeps_takeOver (r := r) hu (hb a ha)
  exact keeps_bind htake fun os u hu hos => keeps_pure hu (forall_mem_of_forall₂ hos)

theorem keeps_assemble (hi : F.inv s) (hr : F.own r) (hb : ∀ a ∈ bodies, F.Gives a) :
    F.Keeps id (assemble g r test bodies) s fun _ => ∀ a ∈ bodies, F.Owns a := by
  rw [assemble_eq_gather]
  refine keeps_bind (keeps_gather hi hb) fun p t ht ⟨hos,howns⟩ => ?_
  exact keeps_mono (keeps_put ht hr fun o ho => F.given_of_own (hos o ho)) fun _ _ => howns

end Fence
end RobotCode
