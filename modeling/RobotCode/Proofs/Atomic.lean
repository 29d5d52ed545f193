import RobotCode.Proofs.Composition
import RobotCode.Proofs.Fence

/-! # Commands that fail as a whole

A command that asks all its questions before it changes anything leaves no trace when it fails. For
taking apart with one output the only move is the last thing that can fail; for putting together the
questions asked again on the way are answered as they were at the outset.
-/
namespace RobotCode
open Store
variable {s t : Store} {r : NodeId} {g : Guarded} {a pos test : Argument} {args : List Argument}
  {c : Command} {e : Fault}

namespace StoreM
variable {α β : Type} {x : StoreM α} {f : α → StoreM β}

/-- If `x` fails on `s`, then `s` is left as it was. -/
def Atomic (x : StoreM α) (s : Store) : Prop := ∀ e t, x s = .error e t → t = s

theorem atomic_throw : Atomic (throw e : StoreM α) s := by
  rintro _ _ ⟨⟩
  rfl

theorem atomic_of_ok {b : α} (h : x s = .ok b t) : Atomic x s := by
  intro e u hx
  rw [h] at hx
  cases hx

theorem atomic_of_error (h : x s = .error e s) : Atomic x s := by
  intro f u hx
  rw [h] at hx
  cases hx
  rfl

theorem atomic_ask {f : Store → Except Fault α} : Atomic (ask f) s := by
  cases hf : f s with
  | error e => exact atomic_of_error (ask_of_error hf)
  | ok b => exact atomic_of_ok (ask_of_ok hf)

theorem atomic_bind (hx : Atomic x s)
    (hf : ∀ b t, x s = .ok b t → ∀ e u, f b t = .error e u → u = s) : Atomic (x >>= f) s := by
  intro e u h
  cases hxs : x s with
  | error d v =>
    rw [bind_of_error hxs] at h
    cases h
    exact hx e u hxs
  | ok b t =>
    rw [bind_of_ok hxs] at h
    exact hf b t hxs e u h

/-- What only looks at the store leaves it for what comes next. -/
theorem atomic_bind_of_look (hx : Atomic x s) (hs : ∀ b t, x s = .ok b t → t = s)
    (hf : ∀ b, x s = .ok b s → Atomic (f b) s) : Atomic (x >>= f) s := by
  refine atomic_bind hx fun b t h => ?_
  obtain rfl := hs b t h
  exact hf b h

theorem atomic_ask_bind {h : Store → Except Fault α} (hf : ∀ b, h s = .ok b → Atomic (f b) s) :
    Atomic (ask h >>= f) s :=
  atomic_bind_of_look atomic_ask (fun _ _ hb => (of_ask hb).2) fun b hb => hf b (of_ask hb).1

/-- What never fails may come last. -/
theorem atomic_bind_of_total (hx : Atomic x s)
    (hf : ∀ b t, x s = .ok b t → ∃ d u, f b t = .ok d u) : Atomic (x >>= f) s := by
  refine atomic_bind hx fun b t h e u he => ?_
  obtain ⟨d,v,hd⟩ := hf b t h
  rw [hd] at he
  cases he

theorem atomic_answer {f : α → Answer} (hx : Atomic x s) : Atomic (do return f (← x)) s :=
  atomic_bind_of_total hx fun _ _ _ => ⟨_,_,rfl⟩

theorem atomic_done {x : StoreM Unit} (hx : Atomic x s) :
    Atomic (do x; return Answer.done) s :=
  atomic_bind_of_total hx fun _ _ _ => ⟨_,_,rfl⟩

theorem atomic_move (b o : NodeId) : Atomic (move b o) s := by
  cases hp : (s.read b).label.awaited? with
  | some k => exact atomic_of_error (move_of_some hp)
  | none => exact atomic_of_ok (move_of_none hp)

theorem atomic_takeOver (r : NodeId) (ha : a.Known s) : Atomic (takeOver r a) s := by
  rcases Statement.takeOver_cases r ha with ⟨_,_,_,h⟩ | ⟨_,_,h⟩
  · exact atomic_of_ok h
  · exact atomic_of_error h

end StoreM

namespace Statement
open StoreM

theorem atomic_place {i? : Option ℕ} : Atomic (place pos i?) s := by
  cases i? with
  | none => exact atomic_throw
  | some i => exact atomic_of_ok rfl

theorem of_place {i? : Option ℕ} {i : ℕ} (h : place pos i? s = .ok i t) : t = s := by
  cases i? with
  | none => cases h
  | some j =>
    cases h
    rfl

theorem atomic_remove : Atomic (remove r pos) s := by
  unfold remove
  refine atomic_ask_bind fun v _ => atomic_ask_bind fun i? _ => ?_
  refine atomic_bind_of_look atomic_place (fun _ _ => of_place) fun i _ => ?_
  split
  next => exact atomic_throw
  next => exact atomic_of_ok rfl

/-- A position that is not a real number is found out before the argument is moved. -/
theorem atomic_add (hpos : ∀ x, pos ≠ .real x) (ha : a.Known s) : Atomic (add r pos a) s := by
  unfold add
  refine atomic_ask_bind fun v _ => atomic_ask_bind fun i? hi => ?_
  cases i? with
  | none =>
    obtain ⟨x,hx,_⟩ := Argument.eq_real_of_position hi
    exact absurd hx (hpos x)
  | some i => exact atomic_bind_of_total (atomic_takeOver r ha) fun _ _ _ => ⟨_,_,rfl⟩

theorem atomic_guardedParts : Atomic (guardedParts g r) s := by
  unfold guardedParts
  refine atomic_ask_bind fun v _ => ?_
  split
  next => exact atomic_of_ok rfl
  next => exact atomic_throw

theorem atomic_requireDistinct {v : Violation} {ns : List NodeId} :
    Atomic (requireDistinct v ns) s := by
  unfold requireDistinct
  split
  next => exact atomic_of_ok rfl
  next => exact atomic_throw

theorem atomic_moves {ps : List (NodeId × NodeId)} (h : ps.length ≤ 1) :
    Atomic (ps.forM fun p => move p.2 p.1) s := by
  rw [List.forM_eq_forM]
  match ps, h with
  | [], _ => exact atomic_of_ok rfl
  | [p], _ =>
    rw [List.forM_cons]
    exact atomic_bind_of_total (atomic_move p.2 p.1) fun _ _ _ => ⟨_,_,rfl⟩

/-- With two outputs the second move could fail after the first one. -/
theorem atomic_disassemble (hlen : args.length ≤ 1) : Atomic (disassemble g r args) s := by
  unfold disassemble
  refine atomic_bind_of_look atomic_guardedParts (fun _ _ h => (of_guardedParts h).1) ?_
  rintro ⟨c,bodies⟩ _
  refine atomic_ask_bind fun outs houts => ?_
  refine atomic_bind_of_look atomic_requireDistinct (fun _ _ h => (of_requireDistinct h).1) ?_
  rintro _ _
  have hall := (mapM_eq_ok_iff.mp houts).length_eq
  have hzip : (outs.zip bodies).length ≤ 1 := by
    rw [List.length_zip]
    omega
  exact atomic_bind_of_total (atomic_moves hzip) fun _ _ _ => ⟨_,_,rfl⟩

theorem atomic_disassembleCall : Atomic (disassembleCall r) s := by
  unfold disassembleCall
  refine atomic_ask_bind fun v _ => ?_
  split
  next => exact atomic_of_ok rfl
  next => exact atomic_throw

/-- Once the checks are passed, nothing can fail. -/
theorem atomic_assemble (hs : s.Sound) (ha : s.Acyclic) (hk : ∀ a ∈ args, a.Known s) :
    Atomic (assemble g r test args) s := by
  unfold assemble
  refine atomic_ask_bind fun _ hready => atomic_ask_bind fun c hc => ?_
  refine atomic_ask_bind fun bodies hargs => ?_
  refine atomic_bind_of_look atomic_requireDistinct (fun _ _ h => (of_requireDistinct h).1) ?_
  intro _ hd
  obtain ⟨_,_,rfl,hnodup,hfree⟩ :=
    composable_of_checks hk hready hc hargs (of_requireDistinct hd).2
  obtain ⟨ns,t,ht,_⟩ := takeOvers_of_free hs ha hnodup hfree
  exact atomic_bind_of_total (atomic_of_ok ht) fun _ _ _ => ⟨_,_,rfl⟩

theorem atomic_assembleCall : Atomic (assembleCall r a) s := fun _ _ =>
  Fence.eq_of_assembleCall_error

end Statement

/-- The commands that change nothing before all has been looked at. Adding is one of them if the
position is not a real number, and taking apart if there is one output. -/
def Command.ChecksFirst : Command → Prop
  | .remove .. | .disassembleIf .. | .disassembleWhile .. | .disassembleCall .. | .assembleIf ..
  | .assembleIfElse .. | .assembleWhile .. | .assembleCall .. => True
  | .add _ (.int _) _ | .add _ (.bool _) _ => True
  | _ => False

open StoreM Statement

theorem Command.ChecksFirst.atomic_run (hc : c.ChecksFirst) (hs : s.Sound) (ha : s.Acyclic)
    (hk : c.Known s) : Atomic c.run s := by
  have hbodies : ∀ {r test bodies}, c.arguments = .statement r :: test :: bodies →
      ∀ a ∈ bodies, a.Known s := fun h b hb =>
    hk b (h ▸ List.mem_cons_of_mem _ (List.mem_cons_of_mem _ hb))
  cases c with
  | remove r pos => exact atomic_answer atomic_remove
  | add r pos a =>
    have hpos : ∀ x, pos ≠ .real x := by
      rintro x rfl
      exact hc
    exact atomic_done (atomic_add hpos (hbodies rfl a (List.mem_singleton_self a)))
  | disassembleIf r output => exact atomic_answer (atomic_disassemble (Nat.le_refl 1))
  | disassembleWhile r output => exact atomic_answer (atomic_disassemble (Nat.le_refl 1))
  | disassembleCall r => exact atomic_answer atomic_disassembleCall
  | assembleIf r test body => exact atomic_done (atomic_assemble hs ha (hbodies rfl))
  | assembleIfElse r test body₁ body₂ => exact atomic_done (atomic_assemble hs ha (hbodies rfl))
  | assembleWhile r test body => exact atomic_done (atomic_assemble hs ha (hbodies rfl))
  | assembleCall r name => exact atomic_done atomic_assembleCall
  | _ => exact hc.elim

/-- In a forest, these commands leave everything as it was when they fail, for whatever reason. -/
theorem failed_run_changes_nothing {allowed : Store → Command → Prop} (h : Reachable allowed s)
    (hf : s.Forest) (hk : c.Known s) (hc : c.ChecksFirst) (he : c.run s = .error e t) : t = s :=
  hc.atomic_run h.sound hf.acyclic hk e t he

/-- A body is not put together from the choice that it belongs to, and a call taken apart does not
become a choice. -/
theorem failed_run_changes_nothing_stranded :
    (∃ e t, (Command.assembleIf ⟨4⟩ (.condition .always) (.statement ⟨6⟩)).run stranded =
      .error e t ∧ t = stranded) ∧
    ∃ e t, (Command.assembleIf ⟨2⟩ (.condition .always) (.statement ⟨3⟩)).run stranded =
      .error e t ∧ t = stranded := by
  have hfirst : ∀ r test body, (Command.assembleIf r test body).ChecksFirst :=
    fun _ _ _ => trivial
  have hholds : ∃ e t, (Command.assembleIf ⟨4⟩ (.condition .always) (.statement ⟨6⟩)).run stranded =
      .error e t := ⟨_,_,rfl⟩
  have hawaits : ∃ e t, (Command.assembleIf ⟨2⟩ (.condition .always) (.statement ⟨3⟩)).run stranded =
      .error e t := ⟨_,_,rfl⟩
  obtain ⟨e,t,ht⟩ := hholds
  obtain ⟨d,u,hu⟩ := hawaits
  refine ⟨⟨e,t,ht,?_⟩,d,u,hu,?_⟩
  · exact failed_run_changes_nothing reachable_stranded forest_stranded (by decide) (hfirst ..) ht
  · exact failed_run_changes_nothing reachable_stranded forest_stranded (by decide) (hfirst ..) hu

end RobotCode
