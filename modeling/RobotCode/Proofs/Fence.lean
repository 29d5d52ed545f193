import RobotCode.Proofs.Fence.Composite

/-! # Commands behind a fence

No command breaks a fence if the statements handed to it are given and the one that it is to put
together is own, and what it takes in has to be own for it to succeed. What no command breaks, no
run breaks.
-/
namespace RobotCode
open Store
variable {F : Fence} {s t u : Store} {n r : NodeId} {a : Argument} {c : Command} {e : Fault}

namespace Command

/-- The statements handed over, the receiver included, satisfy `P`. -/
def Handles (P : NodeId → Prop) (c : Command) : Prop := ∀ a ∈ c.arguments, ∀ n ∈ a.node?, P n

/-- What a command takes in: the statements that it moves, those that it moves something into, and
those that it tabulates. -/
def taken : Command → List Argument
  | .build b => b.inserted
  | .block parts => parts
  | .ifThen _ a | .whileDo _ a | .add _ _ a | .disassembleIf _ a | .disassembleWhile _ a => [a]
  | .assembleIf _ _ a | .assembleWhile _ _ a => [a]
  | .ifElse _ a b | .disassembleIfElse _ a b | .assembleIfElse _ _ a b => [a,b]
  | .table programs => (entries programs).map Prod.snd
  | _ => []

/-- The kind and the statement that a command is to put together. -/
def assembled? : Command → Option (Kind × NodeId)
  | .assembleIf r .. => some (.ifThen,r)
  | .assembleIfElse r .. => some (.ifElse,r)
  | .assembleWhile r .. => some (.whileDo,r)
  | .assembleCall r _ => some (.call,r)
  | _ => none

end Command

namespace Fence
open Statement StoreM

section Answers
variable {α : Type} {x : StoreM α} {Q : Prop} {f : α → Answer}

theorem keeps_answer (h : F.Keeps id x s fun _ => Q) :
    F.Keeps id (do return f (← x)) s fun _ => Q :=
  keeps_bind h fun _ _ ht hQ => keeps_pure ht hQ

theorem keeps_done {x : StoreM Unit} (h : F.Keeps id x s fun _ => Q) :
    F.Keeps id (do x; return Answer.done) s fun _ => Q :=
  keeps_bind h fun _ _ ht hQ => keeps_pure ht hQ

theorem keeps_query {f : Store → Except Fault α} (hi : F.inv s) :
    F.Keeps id (ask f) s fun _ => ∀ a ∈ ([] : List Argument), F.Owns a :=
  keeps_ask hi fun _ _ => by simp

theorem keeps_view {β : Type} {f : Store → Except Fault β} {g : β → α} (hi : F.inv s) :
    F.Keeps id (do let v ← ask f; return g v) s fun _ => ∀ a ∈ ([] : List Argument), F.Owns a :=
  keeps_ask_bind hi fun _ _ => keeps_pure hi (by simp)

end Answers

theorem keeps_equals (hi : F.inv s) (a b : Argument) :
    F.Keeps id (equals a b) s fun _ => ∀ a ∈ ([] : List Argument), F.Owns a := by
  unfold equals
  split
  next => exact keeps_query hi
  next => exact keeps_query hi

theorem keeps_equalStatements (hi : F.inv s) (a b : Argument) :
    F.Keeps id (equalStatements a b) s fun _ => ∀ a ∈ ([] : List Argument), F.Owns a := by
  unfold equalStatements
  split
  next => exact keeps_query hi
  next => exact keeps_query hi
  next => exact keeps_throw hi

theorem keeps_run (hi : F.inv s) (hc : c.Handles F.given) (ho : ∀ p ∈ c.assembled?, F.own p.2) :
    F.Keeps id c.run s fun _ => ∀ a ∈ c.taken, F.Owns a := by
  have hr : ∀ {r as}, c.arguments = .statement r :: as → F.given r := fun h =>
    hc (.statement _) (h ▸ List.mem_cons_self ..) _ rfl
  have htail : ∀ {a as}, c.arguments = a :: as → ∀ b ∈ as, F.Gives b := fun h b hb =>
    hc b (h ▸ List.mem_cons_of_mem _ hb)
  have hnone : ∀ {α : Type} {Q : α → Prop} {x : StoreM α}, F.Keeps id x s Q →
      F.Keeps id x s fun _ => ∀ a ∈ ([] : List Argument), F.Owns a := fun h =>
    keeps_mono h fun _ _ => by simp
  have hsingle : ∀ {a}, F.Owns a → ∀ b ∈ [a], F.Owns b := fun h => by simpa using h
  cases c with
  | create => exact keeps_answer (hnone (keeps_create hi))
  | createLike r => exact keeps_answer (hnone (keeps_create hi))
  | build b => exact keeps_answer (keeps_mono (keeps_build b hi hc) fun _ h => h.2.1)
  | call name => exact keeps_answer (hnone (keeps_call hi name))
  | block parts => exact keeps_answer (keeps_mono (keeps_block hi hc) fun _ h => h.2)
  | ifThen test body =>
    exact keeps_answer (keeps_mono (keeps_assembled hi (htail rfl)) fun _ h => h.2)
  | ifElse test body₁ body₂ =>
    exact keeps_answer (keeps_mono (keeps_assembled hi (htail rfl)) fun _ h => h.2)
  | whileDo test body =>
    exact keeps_answer (keeps_mono (keeps_assembled hi (htail rfl)) fun _ h => h.2)
  | instructions names => exact keeps_answer (hnone (keeps_instructions hi names))
  | copy r =>
    exact keeps_answer (keeps_ask_bind hi fun _ _ => hnone (keeps_copyWithin hi (hr rfl)))
  | child r i => exact keeps_answer (keeps_query hi)
  | kind r => exact keeps_answer (keeps_view hi)
  | length r => exact keeps_answer (keeps_view hi)
  | remove r pos => exact keeps_answer (hnone (keeps_remove hi (hr rfl)))
  | add r pos a =>
    have ha := (List.forall_mem_cons.mp (htail rfl)).2 a (List.mem_singleton_self a)
    exact keeps_done (keeps_mono (keeps_add hi (hr rfl) ha) fun _ => hsingle)
  | disassembleIf r output =>
    exact keeps_answer (keeps_mono (keeps_disassemble hi (hr rfl) (htail rfl)) fun _ h => h.2)
  | disassembleIfElse r output₁ output₂ =>
    exact keeps_answer (keeps_mono (keeps_disassemble hi (hr rfl) (htail rfl)) fun _ h => h.2)
  | disassembleWhile r output =>
    exact keeps_answer (keeps_mono (keeps_disassemble hi (hr rfl) (htail rfl)) fun _ h => h.2)
  | disassembleCall r => exact keeps_answer (hnone (keeps_disassembleCall hi (hr rfl)))
  | assembleIf r test body =>
    exact keeps_done (keeps_assemble hi (ho _ rfl) (List.forall_mem_cons.mp (htail rfl)).2)
  | assembleIfElse r test body₁ body₂ =>
    exact keeps_done (keeps_assemble hi (ho _ rfl) (List.forall_mem_cons.mp (htail rfl)).2)
  | assembleWhile r test body =>
    exact keeps_done (keeps_assemble hi (ho _ rfl) (List.forall_mem_cons.mp (htail rfl)).2)
  | assembleCall r name => exact keeps_done (hnone (keeps_assembleCall hi (ho _ rfl) name))
  | children r => exact keeps_answer (keeps_view hi)
  | condition r => exact keeps_answer (keeps_view hi)
  | callName r => exact keeps_answer (keeps_view hi)
  | size r => exact keeps_answer (keeps_query hi)
  | text a =>
    unfold Command.run
    exact keeps_query hi
  | equals a b => exact keeps_answer (keeps_equals hi a b)
  | differs a b => exact keeps_bind (keeps_equals hi a b) fun _ _ ht h => keeps_pure ht h
  | equalStatements a b => exact keeps_answer (keeps_equalStatements hi a b)
  | count a => exact keeps_answer (hnone (keeps_count hi (hc a (List.mem_singleton_self a))))
  | countWalking a => exact keeps_answer (keeps_query hi)
  | profile a => exact keeps_answer (keeps_query hi)
  | vector a => exact keeps_bind (keeps_query hi) fun _ _ ht h => keeps_pure ht h
  | density a => exact keeps_answer (hnone (keeps_density hi (hc a (List.mem_singleton_self a))))
  | table programs =>
    exact keeps_answer (keeps_table hi fun p hp => hc p.2 (List.mem_map_of_mem hp))

theorem eq_of_assembleCall_error {name : Argument} (h : assembleCall r name s = .error e t) :
    t = s := by
  unfold assembleCall at h
  cases hready : s.ready .call r with
  | error f =>
    rw [bind_of_error (ask_of_error hready)] at h
    cases h
    rfl
  | ok _ =>
    rw [bind_of_ok (ask_of_ok hready)] at h
    split at h
    next => cases h
    next => exact StoreM.eq_of_ask_error h

theorem inv_of_next? (hi : F.inv s) (hc : c.Handles F.given) (ho : ∀ p ∈ c.assembled?, F.own p.2)
    (h : c.next? s = some t) : F.inv t := by
  have hrun := keeps_run hi hc ho
  unfold Command.next? at h
  split at h
  next hr =>
    cases h
    exact (Ends.of_ok hrun hr).1
  next => cases h
  next hr =>
    cases h
    exact Ends.of_error hrun hr

end Fence

/-- What commands that are `allowed` in the store at hand can lead to from `s`. -/
inductive Runs (allowed : Store → Command → Prop) (s : Store) : Store → Prop
  | refl : Runs allowed s s
  | step {t u : Store} {c : Command} (h : Runs allowed s t) (hk : c.Known t) (ha : allowed t c)
      (ht : c.next? t = some u) : Runs allowed s u

theorem Runs.keeps {allowed : Store → Command → Prop} {I : Store → Prop} (h : Runs allowed s t)
    (hs : I s) (hstep : ∀ {t u c}, I t → allowed t c → c.next? t = some u → I u) : I t := by
  induction h with
  | refl => exact hs
  | step _ _ ha ht ih => exact hstep ih ha ht

end RobotCode
