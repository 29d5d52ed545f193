import RobotCode.Proofs.Steps

/-! # Builders and copies as runs of edits

A builder is a new block on which an operation is run. A copy writes new nodes only, each over
copies that are roots by then, so that a store with a copy in it extends the one before.
-/
namespace RobotCode
open Relation Store
variable {tame : Prop} {s t u : Store} {n m r : NodeId} {a : Argument}

namespace Statement
open StoreM

theorem leads_create : Leads tame id create s fun r t => r ∈ t :=
  leads_fresh_empty s.next_mem_push

/-- A new block on which one more operation is run. -/
theorem leads_built (hs : s.Sound) {f : NodeId → StoreM Unit}
    (hf : ∀ r t, Edits tame s t → t.Sound → r ∈ t → Leads tame id (f r) t fun _ _ => True) :
    Leads tame id (do let r ← create; f r; return r) s fun r t => r ∈ t := by
  refine leads_bind leads_create fun r t ht hr => ?_
  refine leads_bind (hf r t ht (ht.sound hs) hr) fun _ u hu _ => leads_pure ?_
  exact hu.mem hr

theorem leads_call (hs : s.Sound) (name : Argument) :
    Leads tame id (call name) s fun r t => r ∈ t :=
  leads_built hs fun _ _ _ _ hr => leads_assembleCall hr

theorem leads_append (hs : s.Sound) (hr : r ∈ s) (ha : a.Known s) :
    Leads tame id (append r a) s fun _ _ => True := by
  unfold append length
  rw [bind_assoc]
  refine leads_ask_bind fun v _ => ?_
  rw [pure_bind]
  exact leads_add hs hr ha

theorem leads_block (hs : s.Sound) {parts : List Argument} (ha : ∀ a ∈ parts, a.Known s) :
    Leads tame id (block parts) s fun r t => r ∈ t := by
  refine leads_built hs fun r t ht hst hr => leads_forM fun a hm u hu => ?_
  exact leads_append (hu.sound hst) (hu.mem hr) ((ha a hm).edits (ht.trans hu))

theorem leads_assembled (hs : s.Sound) {g : Guarded} {test : Argument} {bodies : List Argument}
    (ha : ∀ a ∈ bodies, a.Known s) (hlen : bodies.length = g.arity) :
    Leads tame id (do let r ← create; assemble g r test bodies; return r) s fun r t => r ∈ t :=
  leads_built hs fun _ _ ht hst hr =>
    leads_assemble hst hr (fun a hm => (ha a hm).edits ht) hlen

theorem leads_instructions (hs : s.Sound) (names : List Argument) :
    Leads tame id (instructions names) s fun r t => r ∈ t := by
  unfold instructions
  have hcalls : Leads tame id (names.mapM call) s fun rs t => ∀ r ∈ rs, r ∈ t := by
    apply leads_mapM
    · intro name _ t ht
      exact leads_call (ht.sound hs) name
    · intro r t u hr hu
      exact hu.mem hr
  refine leads_bind hcalls fun rs t ht hrs => leads_block (ht.sound hs) fun a ha => ?_
  obtain ⟨r,hr,rfl⟩ := List.mem_map.mp ha
  exact Argument.known_statement (hrs r hr)

end Statement

namespace Blueprint

mutual
/-- The things there already that a blueprint hands over. -/
def materials : Blueprint → List Argument
  | .call _ => []
  | .instructions _ => []
  | .block parts => materialsOf parts
  | .ifThen _ body => materials body
  | .ifElse _ body₁ body₂ => materials body₁ ++ materials body₂
  | .whileDo _ body => materials body
  | .given a => [a]

def materialsOf : List Blueprint → List Argument
  | [] => []
  | b :: bs => materials b ++ materialsOf bs
end

theorem leads_made {x : StoreM NodeId} (h : Leads tame id x s fun r t => r ∈ t) :
    Leads tame id (Argument.statement <$> x) s fun a t => a.Known t :=
  leads_map (leads_mono h fun _ _ _ hr => Argument.known_statement hr)

mutual
theorem leads_build : ∀ (b : Blueprint) {s : Store}, s.Sound → (∀ a ∈ b.materials, a.Known s) →
    Leads tame id b.build s fun a t => a.Known t
  | .call name, _, hs, _ => leads_made (Statement.leads_call hs name)
  | .instructions names, _, hs, _ => leads_made (Statement.leads_instructions hs names)
  | .block parts, _, hs, ha => by
    unfold build
    refine leads_bind (leads_buildAll parts hs ha) fun as t ht has => leads_made ?_
    exact Statement.leads_block (ht.sound hs) has
  | .ifThen test body, _, hs, ha => by
    unfold build
    refine leads_bind (leads_build body hs ha) fun a t ht hk => leads_made ?_
    exact Statement.leads_assembled (ht.sound hs) (by simpa using hk) rfl
  | .ifElse test body₁ body₂, _, hs, ha => by
    unfold build
    rw [materials] at ha
    have ha₁ := fun a h => ha a (List.mem_append_left _ h)
    refine leads_bind (leads_build body₁ hs ha₁) fun a t ht hk => ?_
    have ha₂ := fun b h => (ha b (List.mem_append_right _ h)).edits ht
    refine leads_bind (leads_build body₂ (ht.sound hs) ha₂) fun b u hu hl => leads_made ?_
    refine Statement.leads_assembled (hu.sound (ht.sound hs)) ?_ rfl
    exact List.forall_mem_cons.mpr ⟨hk.edits hu,by simpa using hl⟩
  | .whileDo test body, _, hs, ha => by
    unfold build
    refine leads_bind (leads_build body hs ha) fun a t ht hk => leads_made ?_
    exact Statement.leads_assembled (ht.sound hs) (by simpa using hk) rfl
  | .given a, _, _, ha => leads_pure (ha a (List.mem_singleton_self a))

theorem leads_buildAll : ∀ (bs : List Blueprint) {s : Store}, s.Sound →
    (∀ a ∈ materialsOf bs, a.Known s) →
    Leads tame id (buildAll bs) s fun as t => ∀ a ∈ as, a.Known t
  | [], _, _, _ => leads_pure (by simp)
  | b :: bs, _, hs, ha => by
    unfold buildAll
    rw [materialsOf] at ha
    have hb := fun a h => ha a (List.mem_append_left _ h)
    refine leads_bind (leads_build b hs hb) fun a t ht hk => ?_
    have hbs := fun c h => (ha c (List.mem_append_right _ h)).edits ht
    refine leads_bind (leads_buildAll bs (ht.sound hs) hbs) fun as u hu has => leads_pure ?_
    exact List.forall_mem_cons.mpr ⟨hk.edits hu,has⟩
end

end Blueprint
end RobotCode
