import RobotCode.Proofs.Atomic

/-! # Commands that fail halfway

Two commands move a state before they have asked their last question. Taking apart a choice looks at
its second body when the first one has gone to its output, and adding to a block takes the argument
over before a real number turns out to name no place. What such a failure leaves is always one move.
-/
namespace RobotCode
open Store
open List (Forall₂)

/-- The command has nothing against moving the state of `b` to `o`, and fails afterwards. -/
inductive Command.Misplaces (s : Store) : Command → NodeId → NodeId → Prop where
  | body {r b b₂ o o₂ : NodeId} {test : Condition} {k : Kind}
    (hr : s.read r = ⟨.guarded .ifElse test,[b,b₂]⟩) (ho : s.read o = {}) (ho₂ : s.read o₂ = {})
    (hne : o ≠ o₂) (hb : (s.read b).label.awaited? = none)
    (hb₂ : (s.read b₂).label.awaited? = some k) :
    Misplaces s (.disassembleIfElse r (.statement o) (.statement o₂)) b o
  | argument {r n : NodeId} {x : Binary64} {cs : List NodeId}
    (hr : s.read r = ⟨.block,cs⟩) (hx : x.within cs.length true) (hn : Statement.Free s r n) :
    Misplaces s (.add r (.real x) (.statement n)) n s.next

/-- The commands that move something before all has been looked at. -/
def Command.ChecksLate : Command → Prop
  | .disassembleIfElse .. | .add .. => True
  | _ => False

variable {s t : Store} {b b₂ o o₂ r : NodeId} {g : Guarded} {args : List Argument} {c : Command}
  {e : Fault} {k : Kind}

namespace Store

/-- To move the state of an assembled node into an empty block changes nothing about what is taken
apart. -/
theorem awaited?_transfer {m : NodeId} (hb : (s.read b).label.awaited? = none)
    (ho : s.read o = {}) :
    ((s.transfer b o).read m).label.awaited? = (s.read m).label.awaited? := by
  rw [read_transfer]
  split
  next hm => rw [hm, hb]; rfl
  next =>
    split
    next hm => rw [hm, hb, ho]; rfl
    next => rfl

/-- A move into an empty block shows, unless it is one of an empty block. -/
theorem read_transfer_eq_iff (ho : s.read o = {}) :
    (∀ m, (s.transfer b o).read m = s.read m) ↔ s.read b = {} := by
  constructor
  · intro h
    rw [← h b, read_transfer, if_pos rfl]
  · intro hb m
    rw [read_transfer]
    split
    next hm => rw [hm, hb]
    next =>
      split
      next hm => rw [hm, hb, ho]
      next => rfl

end Store

namespace Statement
open StoreM

theorem moves_of_pending (ho : s.read o = {}) (hb : (s.read b).label.awaited? = none)
    (hb₂ : (s.read b₂).label.awaited? = some k) :
    ([(o,b),(o₂,b₂)].forM fun p => move p.2 p.1) s =
      .error (.violation (.disassembled k)) (s.transfer b o) := by
  rw [← awaited?_transfer hb ho] at hb₂
  rw [List.forM_eq_forM, List.forM_cons, bind_of_ok (move_of_none hb), List.forM_cons,
    bind_of_error (move_of_some hb₂)]

/-- Of two moves the first one fails, or the second one on what the first one has left. -/
theorem moves_error (ho : s.read o = {})
    (h : ([(o,b),(o₂,b₂)].forM fun p => move p.2 p.1) s = .error e t) :
    t = s ∨ (s.read b).label.awaited? = none ∧
      (∃ k, (s.read b₂).label.awaited? = some k) ∧ t = s.transfer b o := by
  rw [List.forM_eq_forM, List.forM_cons] at h
  rcases exists_of_bind_error h with h | ⟨_,u,hu,h⟩
  · exact Or.inl (atomic_move b o e t h)
  · obtain ⟨hb,rfl⟩ := of_move hu
    have hlast : [(o₂,b₂)].length ≤ 1 := Nat.le_refl 1
    refine Or.inr ⟨hb,?_,atomic_moves hlast e t h⟩
    cases hb₂ : (s.read b₂).label.awaited? with
    | some k => exact ⟨k,rfl⟩
    | none =>
      rw [← awaited?_transfer hb ho] at hb₂
      rw [List.forM_cons, bind_of_ok (move_of_none hb₂)] at h
      cases h

/-- All but the moves is settled on the store as it was. -/
theorem disassemble_error (h : disassemble g r args s = .error e t) :
    t = s ∨ ∃ (test : Condition) (bodies outs : List NodeId), s.read r = ⟨.guarded g test,bodies⟩ ∧
      args = outs.map .statement ∧ (∀ o ∈ outs, s.read o = {}) ∧ outs.Nodup ∧
      ((outs.zip bodies).forM fun p => move p.2 p.1) s = .error e t := by
  unfold disassemble at h
  rcases exists_of_bind_error h with hparts | ⟨⟨test,bodies⟩,s₁,hparts,h₁⟩
  · exact Or.inl (atomic_guardedParts e t hparts)
  obtain ⟨rfl,hr⟩ := of_guardedParts hparts
  dsimp only at h₁
  rcases exists_of_bind_error h₁ with houts | ⟨outs,s₂,houts,h₂⟩
  · exact Or.inl (atomic_ask e t houts)
  obtain ⟨houts,rfl⟩ := of_ask houts
  obtain ⟨hargs,he⟩ := of_mapM_emptyOutput houts
  rcases exists_of_bind_error h₂ with hdistinct | ⟨_,s₃,hdistinct,h₃⟩
  · exact Or.inl (atomic_requireDistinct e t hdistinct)
  obtain ⟨rfl,hd⟩ := of_requireDistinct hdistinct
  rcases exists_of_bind_error h₃ with hmoves | ⟨_,_,_,h₄⟩
  · exact Or.inr ⟨test,bodies,outs,hr,hargs,he,hd,hmoves⟩
  · cases h₄

end Statement

open StoreM Statement

namespace Command

theorem Misplaces.empty (h : c.Misplaces s b o) : s.read o = {} := by
  cases h with
  | body _ ho => exact ho
  | argument => exact read_of_not_mem s.next_not_mem

/-- The command does fail, and the state has been moved. -/
theorem Misplaces.run_error (h : c.Misplaces s b o) (hs : s.Sound) (ha : s.Acyclic) :
    ∃ e t, c.run s = .error e t ∧ ∀ m, t.read m = (s.transfer b o).read m := by
  cases h with
  | @body r _ b₂ _ o₂ _ k hr ho ho₂ hne hb hb₂ =>
    have hd : [o,o₂].Nodup := by simpa using hne
    have hfail : Statement.disassembleIfElse r (.statement o) (.statement o₂) s =
        .error (.violation (.disassembled k)) (s.transfer b o) :=
      (disassemble_eq_moves hr hd (by simp [ho, ho₂])).trans
        (bind_of_error (moves_of_pending ho hb hb₂))
    exact ⟨_,_,bind_of_error hfail,fun _ => rfl⟩
  | argument hr hx hn =>
    have hfail := add_of_real hr hx (hn.insertable hs ha) hn.mem
    refine ⟨_,_,bind_of_error hfail,fun m => ?_⟩
    rw [read_adopt, read_transfer]

/-- There is no other way to fail after a move. -/
theorem ChecksLate.run_error (hc : c.ChecksLate) (hs : s.Sound) (hk : c.Known s)
    (h : c.run s = .error e t) :
    t = s ∨ ∃ b o, c.Misplaces s b o ∧ ∀ m, t.read m = (s.transfer b o).read m := by
  cases c with
  | disassembleIfElse r output₁ output₂ =>
    rcases exists_of_bind_error h with h | ⟨_,_,_,h⟩
    swap
    · cases h
    rcases disassemble_error h with rfl | ⟨test,bodies,outs,hr,hargs,hempty,hd,hmoves⟩
    · exact Or.inl rfl
    obtain ⟨b,b₂,rfl⟩ := List.length_eq_two.mp (hs.admits hr)
    obtain ⟨o,o₂,rfl⟩ : ∃ o o₂, outs = [o,o₂] := by
      rw [← List.length_eq_two, ← List.length_map, ← hargs]
      rfl
    cases hargs
    have ho := hempty o (List.mem_cons_self ..)
    have ho₂ := hempty o₂ (by simp)
    rcases moves_error ho hmoves with rfl | ⟨hb,⟨k,hb₂⟩,rfl⟩
    · exact Or.inl rfl
    · have hne : o ≠ o₂ := by simpa using hd
      exact Or.inr ⟨b,o,.body hr ho ho₂ hne hb hb₂,fun _ => rfl⟩
  | add r pos a =>
    rcases exists_of_bind_error h with h | ⟨_,_,_,h⟩
    swap
    · cases h
    have hm : r ∈ s := hk (.statement r) (List.mem_cons_self ..) r rfl
    rcases add_cases hm pos (hk a (by simp [arguments])) with
      ⟨d,hd⟩ | ⟨cs,n,hr,rfl,hn,⟨i,_,hok⟩ | ⟨x,rfl,hx,hfail⟩⟩
    · rw [hd] at h
      cases h
      exact Or.inl rfl
    · rw [hok] at h
      cases h
    · rw [hfail] at h
      cases h
      refine Or.inr ⟨n,s.next,.argument hr hx hn,fun m => ?_⟩
      rw [read_adopt, read_transfer]
  | _ => exact hc.elim

end Command

/-- In a forest, a choice whose second body is taken apart gives its first body away and fails, and
so does adding at a real number with the argument. Otherwise a failure of these commands leaves the
state of every node as it was, so that it does exactly if what has been moved is an empty block. -/
theorem failed_run_moves_one_state {allowed : Store → Command → Prop} (h : Reachable allowed s)
    (hf : s.Forest) (hk : c.Known s) (hc : c.ChecksLate) :
    (∀ b o, c.Misplaces s b o →
      ∃ e t, c.run s = .error e t ∧ ∀ m, t.read m = (s.transfer b o).read m) ∧
    ∀ e t, c.run s = .error e t →
      ((∀ m, t.read m = s.read m) ↔ ∀ b o, c.Misplaces s b o → s.read b = {}) := by
  have hs := h.sound
  have hrun := fun b o (hm : c.Misplaces s b o) => hm.run_error hs hf.acyclic
  refine ⟨hrun,fun e t he => ⟨fun hsame b o hm => ?_,fun hempty => ?_⟩⟩
  · obtain ⟨_,_,hfail,hread⟩ := hrun b o hm
    rw [he] at hfail
    cases hfail
    exact (read_transfer_eq_iff hm.empty).mp fun m => (hread m).symm.trans (hsame m)
  · rcases hc.run_error hs hk he with rfl | ⟨b,o,hm,hread⟩
    · exact fun _ => rfl
    · have hsame := (read_transfer_eq_iff hm.empty).mpr (hempty b o hm)
      exact fun m => (hread m).trans (hsame m)

/-- A choice between two calls, the second one taken apart, and two spare blocks. -/
def lopsided : Store :=
  ⟨#[{},{},{},{},.guarded .ifElse .always [⟨5⟩,⟨6⟩],.call "move",.apart .call]⟩

theorem reachable_lopsided : Reachable (fun s c => c.Tame s) lopsided := by
  have h₁ : Reachable (fun s c => c.Tame s) ⟨#[{}]⟩ :=
    .step (c := .create) .start (by decide) trivial rfl
  have h₂ : Reachable (fun s c => c.Tame s) ⟨#[{},{}]⟩ :=
    .step (c := .create) h₁ (by decide) trivial rfl
  have h₃ : Reachable (fun s c => c.Tame s) ⟨#[{},{},{},{},
      .guarded .ifElse .always [⟨5⟩,⟨6⟩],.call "move",.call "skip"]⟩ :=
    .step (c := .build (.ifElse (.condition .always) (.call (.text "move")) (.call (.text "skip"))))
      h₂ (by decide) trivial rfl
  exact .step (c := .disassembleCall ⟨6⟩) h₃ (by decide) trivial rfl

theorem forest_lopsided : lopsided.Forest :=
  reachable_lopsided.sound.forest reachable_lopsided.acyclic

/-- The first output gets the call, and a spare block that is added to gets nothing. -/
theorem failed_run_moves_one_state_lopsided :
    (∃ e t, (Command.disassembleIfElse ⟨4⟩ (.statement ⟨0⟩) (.statement ⟨1⟩)).run lopsided =
      .error e t ∧ ∀ m, t.read m = (lopsided.transfer ⟨5⟩ ⟨0⟩).read m) ∧
    ∃ e t, (Command.add ⟨0⟩ (.real .zero) (.statement ⟨5⟩)).run lopsided = .error e t ∧
      ∀ m, t.read m = (lopsided.transfer ⟨5⟩ lopsided.next).read m := by
  have h := reachable_lopsided
  have hf := forest_lopsided
  have hroot : lopsided.IsRoot ⟨0⟩ := by decide
  have hfree : Statement.Free lopsided ⟨0⟩ ⟨5⟩ := ⟨by decide,by decide,rfl,hroot.not_below⟩
  have hbody : (Command.disassembleIfElse ⟨4⟩ (.statement ⟨0⟩) (.statement ⟨1⟩)).Misplaces
      lopsided ⟨5⟩ ⟨0⟩ := .body rfl rfl rfl (by decide) rfl rfl
  have hargument : (Command.add ⟨0⟩ (.real .zero) (.statement ⟨5⟩)).Misplaces
      lopsided ⟨5⟩ lopsided.next := .argument rfl rfl hfree
  constructor
  · exact (failed_run_moves_one_state h hf (by decide) (by trivial)).1 _ _ hbody
  · exact (failed_run_moves_one_state h hf (by decide) (by trivial)).1 _ _ hargument

/-- A call is missing from where it was, although the command has failed. -/
theorem failed_run_moves_call : Reachable (fun s c => c.Tame s) lopsided ∧ lopsided.Forest ∧
    lopsided.read ⟨5⟩ = ⟨.call "move",[]⟩ ∧ lopsided.read ⟨0⟩ = {} ∧
    (∃ e t, (Command.disassembleIfElse ⟨4⟩ (.statement ⟨0⟩) (.statement ⟨1⟩)).run lopsided =
      .error e t ∧ t.read ⟨5⟩ = {} ∧ t.read ⟨0⟩ = ⟨.call "move",[]⟩) ∧
    ∃ e t, (Command.add ⟨0⟩ (.real .zero) (.statement ⟨5⟩)).run lopsided = .error e t ∧
      t.read ⟨5⟩ = {} :=
  ⟨reachable_lopsided,forest_lopsided,rfl,rfl,⟨_,_,rfl,rfl,rfl⟩,_,_,rfl,rfl⟩

end RobotCode
