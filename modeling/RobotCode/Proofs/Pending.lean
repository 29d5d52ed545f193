import RobotCode.Proofs.Fence
import RobotCode.Proofs.Halt

/-! # Statements taken apart

A statement taken apart stays as it is until it is put together again as the kind it was, whatever
is done in between, and until then it is good for nothing else.
-/
namespace RobotCode
open Store Statement StoreM
variable {s t : Store} {n : NodeId} {j k : Kind} {c : Command}

namespace Command

end Command

section Questions

variable (h : s.read n = ⟨.pending k,[]⟩)
include h

end Questions

namespace Fence

end Fence

/-- The operation ends with a violation of a rule. -/
def StoreM.Violates {α : Type} (x : StoreM α) (s : Store) : Prop :=
  ∃ v t, x s = .error (.violation v) t

theorem StoreM.Violates.bind {α β : Type} {x : StoreM α} {f : α → StoreM β}
    (h : StoreM.Violates x s) : StoreM.Violates (x >>= f) s := by
  obtain ⟨v,t,ht⟩ := h
  exact ⟨v,t,bind_of_error ht⟩

theorem StoreM.Violates.bind_of_ok {α β : Type} {x : StoreM α} {f : α → StoreM β} {a : α}
    (hx : x s = .ok a t) (h : StoreM.Violates (f a) t) : StoreM.Violates (x >>= f) s := by
  obtain ⟨v,u,hu⟩ := h
  exact ⟨v,u,(RobotCode.bind_of_ok hx).trans hu⟩

section Violations
variable (h : s.read n = ⟨.pending k,[]⟩)
include h

end Violations

end RobotCode
