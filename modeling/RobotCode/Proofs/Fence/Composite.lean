import RobotCode.Proofs.Fence.Basic
import RobotCode.Proofs.Reachable

/-! # Builders, copies and counts behind a fence

Builders and counts are made of operations on single statements, and a copy writes new nodes only,
so none of them breaks a fence. A count puts together only what it has itself taken apart.
-/
namespace RobotCode
open Store
open List (Forall₂)
variable {F : Fence} {s t : Store} {n r : NodeId} {a : Argument} {g : Guarded}

namespace Fence

section Builders
open Statement StoreM
variable {P : Prop}

theorem keeps_create (hi : F.inv s) : F.Keeps id create s F.own := keeps_fresh hi

/-- A new block on which one more operation is run. -/
theorem keeps_built {f : NodeId → StoreM Unit} (hi : F.inv s)
    (hf : ∀ r t, F.inv t → F.own r → F.Keeps id (f r) t fun _ => P) :
    F.Keeps id (do let r ← create; f r; return r) s fun r => F.own r ∧ P := by
  refine keeps_bind (keeps_create hi) fun r t ht hr => ?_
  exact keeps_bind (hf r t ht hr) fun _ u hu hP => keeps_pure hu ⟨hr,hP⟩

theorem keeps_call (hi : F.inv s) (name : Argument) :
    F.Keeps id (call name) s fun r => F.own r ∧ True :=
  keeps_built hi fun _ _ ht hr => keeps_assembleCall ht hr name

theorem keeps_append (hi : F.inv s) (hr : F.given r) (ha : F.Gives a) :
    F.Keeps id (append r a) s fun _ => F.Owns a := by
  unfold append length
  rw [bind_assoc]
  refine keeps_ask_bind hi fun v _ => ?_
  rw [pure_bind]
  exact keeps_add hi hr ha

theorem keeps_block {parts : List Argument} (hi : F.inv s) (ha : ∀ a ∈ parts, F.Gives a) :
    F.Keeps id (block parts) s fun r => F.own r ∧ ∀ a ∈ parts, F.Owns a :=
  keeps_built hi fun _ _ ht hr => keeps_forM ht fun a hm _ hu =>
    keeps_append hu (F.given_of_own hr) (ha a hm)

theorem keeps_assembled {test : Argument} {bodies : List Argument} (hi : F.inv s)
    (ha : ∀ a ∈ bodies, F.Gives a) :
    F.Keeps id (do let r ← create; assemble g r test bodies; return r) s
      fun r => F.own r ∧ ∀ a ∈ bodies, F.Owns a :=
  keeps_built hi fun _ _ ht hr => keeps_assemble ht hr ha

theorem keeps_instructions (hi : F.inv s) (names : List Argument) :
    F.Keeps id (instructions names) s F.own := by
  unfold instructions
  have hcalls := keeps_mapM (P := fun _ r => F.own r ∧ True) names hi fun a _ t ht =>
    keeps_call ht a
  refine keeps_bind hcalls fun rs t ht hrs => keeps_mono (keeps_block ht fun a ha => ?_) ?_
  · obtain ⟨r,hr,rfl⟩ := List.mem_map.mp ha
    obtain ⟨_,_,hown,_⟩ := exists_of_forall₂ hrs.flip hr
    exact gives_statement (F.given_of_own hown)
  · exact fun _ h => h.1

end Builders

theorem inv_push_of_given {c : Cell} (hi : F.inv s) (hc : ∀ m ∈ c.children, F.given m) :
    F.inv (s.push c) := by
  rw [push_eq_put]
  exact F.inv_put (F.inv_push hi) (F.own_next hi) hc

theorem keeps_copyWithin {d : ℕ} (hi : F.inv s) (hn : F.given n) :
    F.Keeps id (Statement.copyWithin d n) s F.own := by
  induction d generalizing s n with
  | zero => exact keeps_throw hi
  | succ d ih =>
    unfold Statement.copyWithin
    refine keeps_ask_bind hi fun v hv => ?_
    obtain ⟨_,rfl⟩ := fields_eq_ok_iff.mp hv
    have hcopies := keeps_mapM (P := fun _ o => F.own o) (s.cell n).children hi
      fun c hc t ht => ih ht (F.given_of_child hi hn hc)
    refine keeps_bind hcopies fun os t ht hos => ⟨inv_push_of_given ht fun o ho => ?_,F.own_next ht⟩
    obtain ⟨_,_,hown⟩ := exists_of_forall₂ hos.flip ho
    exact F.given_of_own hown

end Fence

/-- What is there already and is to be moved into something built. -/
def Blueprint.inserted : Blueprint → List Argument
  | .given _ => []
  | b => b.materials

namespace Fence
open Statement

theorem keeps_made {x : StoreM NodeId} {Q : Argument → Prop}
    (hx : F.Keeps id x s fun r => Q (.statement r)) :
    F.Keeps id (Argument.statement <$> x) s Q := keeps_map hx

/-- What is built is given, and if it is taken in as well, so is everything it is built of. -/
def Builds (F : Fence) (b : Blueprint) (a : Argument) : Prop :=
  F.Gives a ∧ (∀ m ∈ b.inserted, F.Owns m) ∧ (F.Owns a → ∀ m ∈ b.materials, F.Owns m)

theorem builds_of_own {b : Blueprint} (hr : F.own r) (hm : ∀ m ∈ b.materials, F.Owns m)
    (hb : b.inserted = b.materials) : F.Builds b (.statement r) := by
  refine ⟨gives_statement (F.given_of_own hr),?_,fun _ => hm⟩
  rwa [hb]

mutual
theorem keeps_build : ∀ (b : Blueprint) {s : Store}, F.inv s → (∀ a ∈ b.materials, F.Gives a) →
    F.Keeps id b.build s (F.Builds b)
  | .call name, _, hi, _ => by
    refine keeps_made (keeps_mono (keeps_call hi name) fun r hr => ?_)
    exact builds_of_own hr.1 (by simp [Blueprint.materials]) rfl
  | .instructions names, _, hi, _ => by
    refine keeps_made (keeps_mono (keeps_instructions hi names) fun r hr => ?_)
    exact builds_of_own hr (by simp [Blueprint.materials]) rfl
  | .block parts, _, hi, ha => by
    unfold Blueprint.build
    refine keeps_bind (keeps_buildAll parts hi ha) fun as t ht ⟨hgives,howns⟩ => keeps_made ?_
    refine keeps_mono (keeps_block ht hgives) fun r hr => ?_
    exact builds_of_own hr.1 (howns hr.2) rfl
  | .ifThen test body, _, hi, ha => by
    unfold Blueprint.build
    refine keeps_bind (keeps_build body hi ha) fun a t ht ⟨hgives,_,howns⟩ => keeps_made ?_
    refine keeps_mono (keeps_assembled ht (by simpa using hgives)) fun r hr => ?_
    exact builds_of_own hr.1 (howns (hr.2 a (List.mem_singleton_self a))) rfl
  | .ifElse test body₁ body₂, _, hi, ha => by
    unfold Blueprint.build
    rw [Blueprint.materials] at ha
    have ha₁ := fun a h => ha a (List.mem_append_left _ h)
    have ha₂ := fun a h => ha a (List.mem_append_right _ h)
    refine keeps_bind (keeps_build body₁ hi ha₁) fun a t ht ⟨hga,_,hoa⟩ => ?_
    refine keeps_bind (keeps_build body₂ ht ha₂) fun b u hu ⟨hgb,_,hob⟩ => keeps_made ?_
    have hgives : ∀ x ∈ [a,b], F.Gives x := List.forall_mem_cons.mpr ⟨hga,by simpa using hgb⟩
    refine keeps_mono (keeps_assembled hu hgives) fun r ⟨hr,howns⟩ => builds_of_own hr ?_ rfl
    rw [Blueprint.materials]
    refine List.forall_mem_append.mpr ⟨hoa (howns a ?_),hob (howns b ?_)⟩ <;> simp
  | .whileDo test body, _, hi, ha => by
    unfold Blueprint.build
    refine keeps_bind (keeps_build body hi ha) fun a t ht ⟨hgives,_,howns⟩ => keeps_made ?_
    refine keeps_mono (keeps_assembled ht (by simpa using hgives)) fun r hr => ?_
    exact builds_of_own hr.1 (howns (hr.2 a (List.mem_singleton_self a))) rfl
  | .given a, _, hi, ha => by
    refine keeps_pure hi ⟨ha a (List.mem_singleton_self a),by simp [Blueprint.inserted],?_⟩
    exact fun howns m hm => List.mem_singleton.mp hm ▸ howns

theorem keeps_buildAll : ∀ (bs : List Blueprint) {s : Store}, F.inv s →
    (∀ a ∈ Blueprint.materialsOf bs, F.Gives a) →
    F.Keeps id (Blueprint.buildAll bs) s fun as => (∀ a ∈ as, F.Gives a) ∧
      ((∀ a ∈ as, F.Owns a) → ∀ m ∈ Blueprint.materialsOf bs, F.Owns m)
  | [], _, hi, _ => keeps_pure hi ⟨by simp,by simp [Blueprint.materialsOf]⟩
  | b :: bs, _, hi, ha => by
    unfold Blueprint.buildAll
    rw [Blueprint.materialsOf] at ha
    have hb := fun a h => ha a (List.mem_append_left _ h)
    have hbs := fun a h => ha a (List.mem_append_right _ h)
    refine keeps_bind (keeps_build b hi hb) fun a t ht ⟨hga,_,hoa⟩ => ?_
    refine keeps_bind (keeps_buildAll bs ht hbs) fun as u hu ⟨hgas,hoas⟩ => keeps_pure hu ?_
    refine ⟨List.forall_mem_cons.mpr ⟨hga,hgas⟩,fun howns => ?_⟩
    obtain ⟨ho,hos⟩ := List.forall_mem_cons.mp howns
    rw [Blueprint.materialsOf]
    exact List.forall_mem_append.mpr ⟨hoa ho,hoas hos⟩
end

section Counts
open Tally TallyM StoreM
variable {i : Progress}

theorem keeps_edit {α : Type} {Q : α → Prop} {x : StoreM α} (h : F.Keeps id x i.store Q) :
    F.Keeps Progress.store (edit x) i Q := by
  unfold Keeps Ends edit at *
  cases hx : x i.store with
  | error e t =>
    rw [hx] at h
    simp only [hx]
    exact h
  | ok a t =>
    rw [hx] at h
    simp only [hx]
    exact h

/-- `count` does not break the fence, whatever it is to count. -/
def KeepsCount (F : Fence) (count : NodeId → TallyM ℕ) : Prop :=
  ∀ n (i : Progress), F.inv i.store → F.given n → F.Keeps Progress.store (count n) i fun _ => True

theorem keeps_blockCalls {count : NodeId → TallyM ℕ} (hc : F.KeepsCount count)
    (hi : F.inv i.store) (hr : F.given r) :
    F.Keeps Progress.store (blockCalls count r) i fun _ => True := by
  unfold blockCalls
  have hlength : F.Keeps id (length r) i.store fun _ => True :=
    keeps_ask_bind hi fun _ _ => keeps_pure hi trivial
  refine keeps_bind (keeps_edit hlength) fun _ j hj _ => keeps_foldlM hj fun _ _ _ k hk => ?_
  refine keeps_bind (keeps_edit (keeps_remove hk hr)) fun c l hl hcl => ?_
  refine keeps_bind (hc c l hl hcl) fun _ m hm _ => ?_
  exact keeps_bind (keeps_edit (keeps_add hm hr (gives_statement hcl))) fun _ _ ho _ =>
    keeps_pure ho trivial

theorem keeps_guardedCalls {count : NodeId → TallyM ℕ} (hc : F.KeepsCount count)
    (hi : F.inv i.store) (hr : F.given r) :
    F.Keeps Progress.store (guardedCalls count g r) i fun _ => True := by
  unfold guardedCalls
  have hcreate := keeps_mapM (P := fun _ o => F.own o) (List.replicate g.arity ()) hi
    fun _ _ j hj => keeps_edit (keeps_create hj)
  refine keeps_bind hcreate fun outs j hj houts => ?_
  have hgiven : ∀ o ∈ outs, F.given o := by
    intro o ho
    obtain ⟨_,_,hown⟩ := exists_of_forall₂ houts.flip ho
    exact F.given_of_own hown
  have hgives : ∀ a ∈ outs.map Argument.statement, F.Gives a := by
    intro a ha
    obtain ⟨o,ho,rfl⟩ := List.mem_map.mp ha
    exact gives_statement (hgiven o ho)
  refine keeps_bind (keeps_edit (keeps_disassemble hj hr hgives)) fun test k hk ⟨hown,_⟩ => ?_
  have hcounts : F.Keeps Progress.store
      (outs.foldlM (fun total out => do return total + (← count out)) 0) k fun _ => True := by
    refine keeps_foldlM hk fun o ho _ l hl => ?_
    exact keeps_bind (hc o l hl (hgiven o ho)) fun _ _ hm _ => keeps_pure hm trivial
  refine keeps_bind hcounts fun _ l hl _ => ?_
  refine keeps_bind (keeps_edit (keeps_assemble hl hown hgives)) fun _ _ hm _ => ?_
  exact keeps_pure hm trivial

theorem keeps_callCalls (hi : F.inv i.store) (hr : F.given r) :
    F.Keeps Progress.store (callCalls r) i fun _ => True := by
  unfold callCalls
  refine keeps_bind (keeps_edit (keeps_disassembleCall hi hr)) fun name j hj hown => ?_
  exact keeps_bind (keeps_edit (keeps_assembleCall hj hown _)) fun _ _ hk _ => keeps_pure hk trivial

theorem keeps_rebuildWithin (d : ℕ) : F.KeepsCount (rebuildWithin d) := by
  induction d with
  | zero => exact fun _ _ hi _ => keeps_throw hi
  | succ d ih =>
    intro r i hi hr
    rw [rebuildWithin_succ]
    have hkind : F.Keeps id (Statement.kind r) i.store fun _ => True :=
      keeps_ask_bind hi fun _ _ => keeps_pure hi trivial
    refine keeps_bind (keeps_edit hkind) fun k j hj _ => ?_
    have hcalls : F.Keeps Progress.store (kindCalls (rebuildWithin d) k r) j fun _ => True := by
      cases k with
      | block => exact keeps_blockCalls ih hj hr
      | ifThen => exact keeps_guardedCalls ih hj hr
      | ifElse => exact keeps_guardedCalls ih hj hr
      | whileDo => exact keeps_guardedCalls ih hj hr
      | call => exact keeps_callCalls hj hr
    refine keeps_bind hcalls fun calls l hl _ => ?_
    exact ⟨hl,trivial⟩

theorem keeps_count (hi : F.inv s) (ha : F.Gives a) : F.Keeps id (count a) s fun _ => True := by
  unfold Keeps Ends count countLogged
  cases a with
  | statement r =>
    have hr : F.Keeps Progress.store (rebuildWithin (s.size + 1) r) ⟨s,[]⟩ fun _ => True :=
      keeps_rebuildWithin _ r _ hi (ha r rfl)
    have hrebuild : rebuild r ⟨s,[]⟩ = rebuildWithin (s.size + 1) r ⟨s,[]⟩ := rfl
    simp only [Argument.toStatement, hrebuild]
    cases h : rebuildWithin (s.size + 1) r ⟨s,[]⟩ with
    | ok calls j => exact (Ends.of_ok hr h).imp_left id
    | error e j => exact Ends.of_error hr h
  | _ => exact hi

theorem keeps_density (hi : F.inv s) (ha : F.Gives a) :
    F.Keeps id (Density.of a) s fun _ => True := by
  unfold Density.of Statement.size
  refine keeps_ask_bind hi fun r _ => keeps_ask_bind hi fun nodes _ => ?_
  exact keeps_bind (keeps_count hi ha) fun _ _ ht _ => keeps_pure ht trivial

theorem owns_of_profile {f : Profile} (hi : F.inv s) (ha : F.Gives a)
    (h : (do let n ← a.toStatement "kind"; s.profile n) = .ok f) : F.Owns a := by
  cases a with
  | statement n =>
    obtain ⟨_,hn,h⟩ := bind_eq_ok_iff.mp h
    cases hn
    unfold Store.profile Store.profileWithin at h
    obtain ⟨v,hv,_⟩ := bind_eq_ok_iff.mp h
    exact owns_statement (F.own_of_assembled hi (ha n rfl) (assembled_eq_ok_iff.mp hv).1)
  | _ => cases h

theorem keeps_row (hi : F.inv s) (name : String) (ha : F.Gives a) :
    F.Keeps id (Row.of name a) s fun _ => F.Owns a := by
  unfold Row.of Profile.of
  refine keeps_ask_bind hi fun f hf => ?_
  have howns := owns_of_profile hi ha hf
  refine keeps_bind (keeps_count hi ha) fun total t ht _ => ?_
  exact keeps_ask_bind ht fun _ _ => keeps_pure ht howns

theorem keeps_table {programs : List (String × Argument)} (hi : F.inv s)
    (ha : ∀ p ∈ programs, F.Gives p.2) :
    F.Keeps id (Table.of programs) s
      fun _ => ∀ a ∈ (entries programs).map Prod.snd, F.Owns a := by
  unfold Table.of
  have hrows := keeps_mapM (P := fun p _ => F.Owns p.2) (entries programs) hi
    fun p hp t ht => keeps_row ht p.1 (ha p (mem_of_mem_entries hp))
  refine keeps_mono hrows fun rows hall a hm => ?_
  obtain ⟨p,hp,rfl⟩ := List.mem_map.mp hm
  obtain ⟨_,_,howns⟩ := exists_of_forall₂ hall hp
  exact howns

end Counts
end Fence

end RobotCode
