import RobotCode.Proofs.Builders
import RobotCode.Proofs.Copies
import RobotCode.Proofs.Tallies

/-! # Reachable stores

A run is a list of commands on nodes in use, failed ones included; one that would go on for ever
leads nowhere. Since every command is a run of edits, all that a run can reach is sound. It is free
of cycles as well if no statement is taken apart into outputs below its own bodies.
-/
namespace RobotCode
open Relation Store StoreM
variable {tame : Prop} {s t : Store} {c : Command} {r : NodeId}

namespace Command

/-- All that a command is handed, the receiver included. -/
def arguments : Command → List Argument
  | .create => []
  | .createLike r | .copy r | .child r _ | .kind r | .length r | .disassembleCall r
  | .children r | .condition r | .callName r | .size r => [.statement r]
  | .build b => b.materials
  | .call name => [name]
  | .block parts => parts
  | .ifThen test body | .whileDo test body => [test, body]
  | .ifElse test body₁ body₂ => [test, body₁, body₂]
  | .instructions names => names
  | .remove r pos => [.statement r, pos]
  | .add r pos a => [.statement r, pos, a]
  | .disassembleIf r output | .disassembleWhile r output => [.statement r, output]
  | .disassembleIfElse r output₁ output₂ => [.statement r, output₁, output₂]
  | .assembleIf r test body | .assembleWhile r test body => [.statement r, test, body]
  | .assembleIfElse r test body₁ body₂ => [.statement r, test, body₁, body₂]
  | .assembleCall r name => [.statement r, name]
  | .equals a b | .differs a b | .equalStatements a b => [a, b]
  | .text a | .count a | .countWalking a | .profile a | .vector a | .density a => [a]
  | .table programs => programs.map Prod.snd

/-- Every statement handed over is in use. -/
def Known (s : Store) (c : Command) : Prop := ∀ a ∈ c.arguments, a.Known s

instance (s : Store) (c : Command) : Decidable (c.Known s) :=
  inferInstanceAs (Decidable (∀ a ∈ c.arguments, a.Known s))

/-- No statement is to be taken apart into outputs below its own bodies. -/
def Tame (s : Store) : Command → Prop
  | .disassembleIf r output | .disassembleWhile r output => Statement.OutputsClear s r [output]
  | .disassembleIfElse r output₁ output₂ => Statement.OutputsClear s r [output₁, output₂]
  | _ => True

/-- The store that a command leaves, also when it fails; a command that never ends leaves none. -/
def next? (c : Command) (s : Store) : Option Store :=
  match c.run s with
  | .ok _ t => some t
  | .error .endless _ => none
  | .error _ t => some t

end Command

/-- What commands that are `allowed` in the store at hand can lead to from the empty store. -/
inductive Reachable (allowed : Store → Command → Prop) : Store → Prop
  | start : Reachable allowed {}
  | step {s t : Store} {c : Command} (h : Reachable allowed s) (hk : c.Known s)
      (ha : allowed s c) (ht : c.next? s = some t) : Reachable allowed t

section Commands
variable {α : Type} {x : StoreM α} {Q : α → Store → Prop} {f : α → Answer}

theorem leads_answer (h : Leads tame id x s Q) :
    Leads tame id (do return f (← x)) s fun _ _ => True :=
  leads_bind h fun _ _ _ _ => leads_pure trivial

theorem leads_done {x : StoreM Unit} (h : Leads tame id x s fun _ _ => True) :
    Leads tame id (do x; return Answer.done) s fun _ _ => True :=
  leads_bind h fun _ _ _ _ => leads_pure trivial

theorem leads_view {β : Type} {f : Store → Except Fault β} {g : β → α} :
    Leads tame id (do let v ← ask f; return g v) s fun _ _ => True :=
  leads_ask_bind fun _ _ => leads_pure trivial

theorem leads_copy (hs : s.Sound) (hr : r ∈ s) :
    Leads tame id (Statement.copy r) s (Copied s r) :=
  leads_ask_bind fun _ _ => Statement.leads_copyWithin hs hr

theorem leads_equals (a b : Argument) :
    Leads tame id (Statement.equals a b) s fun _ _ => True := by
  unfold Statement.equals
  split
  next => exact leads_ask_true
  next => exact leads_ask_true

theorem leads_equalStatements (a b : Argument) :
    Leads tame id (Statement.equalStatements a b) s fun _ _ => True := by
  unfold Statement.equalStatements
  split
  next => exact leads_ask_true
  next => exact leads_ask_true
  next => exact leads_throw

/-- However a command ends, it has changed the store by edits; if it is tame, by tame ones. -/
theorem leads_run (hs : s.Sound) (hl : tame → s.Loopless) (hk : c.Known s)
    (ht : tame → c.Tame s) : Leads tame id c.run s fun _ _ => True := by
  have hr : ∀ {r as}, c.arguments = .statement r :: as → r ∈ s := by
    intro r as h
    exact hk (.statement r) (h ▸ List.mem_cons_self ..) r rfl
  have htail : ∀ {r as}, c.arguments = .statement r :: as → ∀ a ∈ as, a.Known s := by
    intro r as h a ha
    exact hk a (h ▸ List.mem_cons_of_mem _ ha)
  have hbody : ∀ {test bodies}, c.arguments = test :: bodies → ∀ a ∈ bodies, a.Known s := by
    intro test bodies h a ha
    exact hk a (h ▸ List.mem_cons_of_mem _ ha)
  cases c with
  | create => exact leads_answer Statement.leads_create
  | createLike r => exact leads_answer Statement.leads_create
  | build b => exact leads_answer (Blueprint.leads_build b hs hk)
  | call name => exact leads_answer (Statement.leads_call hs name)
  | block parts => exact leads_answer (Statement.leads_block hs hk)
  | ifThen test body => exact leads_answer (Statement.leads_assembled hs (hbody rfl) rfl)
  | ifElse test body₁ body₂ => exact leads_answer (Statement.leads_assembled hs (hbody rfl) rfl)
  | whileDo test body => exact leads_answer (Statement.leads_assembled hs (hbody rfl) rfl)
  | instructions names => exact leads_answer (Statement.leads_instructions hs names)
  | copy r => exact leads_answer (leads_copy hs (hr rfl))
  | child r i => exact leads_answer leads_ask_true
  | kind r => exact leads_answer leads_view
  | length r => exact leads_answer leads_view
  | remove r pos => exact leads_answer (Statement.leads_remove hs (hr rfl))
  | add r pos a =>
    have ha := List.forall_mem_cons.mp (htail rfl)
    exact leads_done (Statement.leads_add hs (hr rfl) (ha.2 a (List.mem_singleton_self a)))
  | disassembleIf r output =>
    exact leads_answer (Statement.leads_disassemble hs (hr rfl) (htail rfl) ht fun h => hl h r)
  | disassembleIfElse r output₁ output₂ =>
    exact leads_answer (Statement.leads_disassemble hs (hr rfl) (htail rfl) ht fun h => hl h r)
  | disassembleWhile r output =>
    exact leads_answer (Statement.leads_disassemble hs (hr rfl) (htail rfl) ht fun h => hl h r)
  | disassembleCall r => exact leads_answer (Statement.leads_disassembleCall hs (hr rfl))
  | assembleIf r test body =>
    have ha := List.forall_mem_cons.mp (htail rfl)
    exact leads_done (Statement.leads_assemble hs (hr rfl) ha.2 rfl)
  | assembleIfElse r test body₁ body₂ =>
    have ha := List.forall_mem_cons.mp (htail rfl)
    exact leads_done (Statement.leads_assemble hs (hr rfl) ha.2 rfl)
  | assembleWhile r test body =>
    have ha := List.forall_mem_cons.mp (htail rfl)
    exact leads_done (Statement.leads_assemble hs (hr rfl) ha.2 rfl)
  | assembleCall r name => exact leads_done (Statement.leads_assembleCall (hr rfl))
  | children r => exact leads_answer leads_view
  | condition r => exact leads_answer leads_view
  | callName r => exact leads_answer leads_view
  | size r => exact leads_answer leads_ask_true
  | text a =>
    unfold Command.run
    exact leads_ask_true
  | equals a b => exact leads_answer (leads_equals a b)
  | differs a b => exact leads_bind (leads_equals a b) fun _ _ _ _ => leads_pure trivial
  | equalStatements a b => exact leads_answer (leads_equalStatements a b)
  | count a => exact leads_answer (Tally.leads_count hs hl (hk a (List.mem_singleton_self a)))
  | countWalking a => exact leads_answer leads_ask_true
  | profile a => exact leads_answer leads_ask_true
  | vector a => exact leads_bind leads_ask_true fun _ _ _ _ => leads_pure trivial
  | density a => exact leads_answer (leads_density hs hl (hk a (List.mem_singleton_self a)))
  | table programs =>
    have ha : ∀ p ∈ programs, p.2.Known s := fun p hp => hk _ (List.mem_map_of_mem hp)
    exact leads_answer (leads_table hs hl ha)

theorem edits_of_next? (hs : s.Sound) (hl : tame → s.Loopless) (hk : c.Known s)
    (ht : tame → c.Tame s) (h : c.next? s = some t) : Edits tame s t := by
  have hrun := leads_run hs hl hk ht
  unfold Leads at hrun
  unfold Command.next? at h
  split at h
  next hr =>
    rw [hr] at hrun
    cases h
    exact hrun.1
  next => cases h
  next hr =>
    rw [hr] at hrun
    cases h
    exact hrun

end Commands

section Invariants
variable {allowed : Store → Command → Prop}

theorem Reachable.sound (h : Reachable allowed s) : s.Sound := by
  induction h with
  | start => exact sound_empty
  | step _ hk _ ht ih =>
    have he : Edits False _ _ := edits_of_next? ih False.elim hk False.elim ht
    exact he.sound ih

theorem Reachable.acyclic (h : Reachable (fun s c => c.Tame s) s) : s.Acyclic := by
  induction h with
  | start =>
    intro n hn
    exact absurd hn.mem (by simp [mem_iff, size])
  | step h hk ha ht ih =>
    have he : Edits True _ _ := edits_of_next? h.sound (fun _ => ih.loopless) hk (fun _ => ha) ht
    exact he.acyclic ih

/-- A run in which a statement is taken apart into a block inside its body, so that the block
becomes its own body. -/
def looped : Store :=
  ⟨#[{},{},.guarded .ifThen .always [⟨2⟩],.apart .ifThen,{}]⟩

theorem reachable_looped : Reachable (fun _ _ => True) looped := by
  have h₁ : Reachable (fun _ _ => True) ⟨#[{}]⟩ :=
    .step (c := .create) .start (by decide) trivial rfl
  have h₂ : Reachable (fun _ _ => True) ⟨#[{},.guarded .ifThen .always [⟨2⟩],{}]⟩ :=
    .step (c := .ifThen (.condition .always) (.statement ⟨0⟩)) h₁ (by decide) trivial rfl
  have h₃ : Reachable (fun _ _ => True) ⟨#[{},{},{},.guarded .ifThen .always [⟨4⟩],
      .guarded .ifThen .always [⟨2⟩]]⟩ :=
    .step (c := .ifThen (.condition .always) (.statement ⟨1⟩)) h₂ (by decide) trivial rfl
  exact .step (c := .disassembleIf ⟨3⟩ (.statement ⟨2⟩)) h₃ (by decide) trivial rfl

/-- If nothing is taken apart into outputs below its own bodies, no node ever lies below itself. -/
theorem acyclic_of_reachable_tame (h : Reachable (fun s c => c.Tame s) s) : s.Acyclic :=
  h.acyclic

/-- A statement in a block, taken apart into the empty block beside it. -/
def emptied : Store := ⟨#[{},{},{},{},.block [⟨5⟩,⟨6⟩],.apart .ifThen,{}]⟩

theorem acyclic_of_emptied : Reachable (fun s c => c.Tame s) emptied ∧ emptied.Acyclic := by
  let full : Store := ⟨#[{},{},{},{},.block [⟨5⟩,⟨6⟩],.guarded .ifThen .always [⟨2⟩],{}]⟩
  have h₁ : Reachable (fun s c => c.Tame s) ⟨#[{}]⟩ :=
    .step (c := .create) .start (by decide) trivial rfl
  have h₂ : Reachable (fun s c => c.Tame s) ⟨#[{},.guarded .ifThen .always [⟨2⟩],{}]⟩ :=
    .step (c := .ifThen (.condition .always) (.statement ⟨0⟩)) h₁ (by decide) trivial rfl
  have h₃ : Reachable (fun s c => c.Tame s) ⟨#[{},.guarded .ifThen .always [⟨2⟩],{},{}]⟩ :=
    .step (c := .create) h₂ (by decide) trivial rfl
  have h₄ : Reachable (fun s c => c.Tame s) full :=
    .step (c := .block [.statement ⟨1⟩,.statement ⟨3⟩]) h₃ (by decide) trivial rfl
  have htame : Command.Tame full (.disassembleIf ⟨5⟩ (.statement ⟨6⟩)) := by
    intro n hn b hb hbn
    obtain rfl : n = ⟨6⟩ := by simpa using hn
    obtain rfl : b = ⟨2⟩ := List.mem_singleton.mp hb.1
    have hsearch : full.reaches ⟨2⟩ ⟨6⟩ = .ok false := rfl
    exact absurd ((reaches_eq_ok hsearch).mpr hbn) Bool.false_ne_true
  have h₅ : Reachable (fun s c => c.Tame s) emptied := .step h₄ (by decide) htame rfl
  exact ⟨h₅,acyclic_of_reachable_tame h₅⟩

end Invariants
end RobotCode
