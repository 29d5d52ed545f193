import RobotCode.Proofs.Recount
import RobotCode.Proofs.Sequences.Basic

/-! # Counting a block of calls

Each round takes a call out, counts it by itself, and moves it back into its place. The calls that
have not had their turn are as they were, so that cycles in other statements do not matter.
-/
namespace RobotCode
open Store
open List (Forall₂)
variable {s t u : Store} {c o r : NodeId} {name : String} {pre post rest cs os : List NodeId}
  {names : List String} {d : ℕ}

namespace Tally
open TallyM Statement
variable (records : List Subtotal)

/-- The children `cs` of a block have been exchanged for new leaves `os` of the same labels. -/
structure Renewed (s : Store) (r : NodeId) (cs os : List NodeId) (t : Store) : Prop where
  edits : Edits True s t
  leaves : Forall₂ (fun c o => t.read o = s.read c) cs os
  fresh : ∀ o ∈ os, o ∈ t ∧ o ∉ s
  kept : ∀ m ∈ s, m ≠ r → m ∉ cs → t.read m = s.read m

namespace Renewed

theorem nil (s : Store) (r : NodeId) : Renewed s r [] [] s :=
  ⟨.refl,.nil,by simp,fun _ _ _ _ => rfl⟩

theorem cons (h : Renewed s r [c] [o] u) (hr : r ∈ s) (hcs : ∀ x ∈ cs, x ∈ s ∧ x ≠ r ∧ x ≠ c)
    (hrest : Renewed u r cs os t) : Renewed s r (c :: cs) (o :: os) t where
  edits := h.edits.trans hrest.edits
  leaves := by
    obtain ⟨hou,hos⟩ := h.fresh o (List.mem_singleton_self o)
    have hor : o ≠ r := fun e => hos (e ▸ hr)
    have hocs : o ∉ cs := fun ho => hos (hcs o ho).1
    obtain _ | ⟨hread,_⟩ := h.leaves
    refine .cons ((hrest.kept o hou hor hocs).trans hread) ?_
    refine (forall₂_with_mem hrest.leaves).imp fun x _ hx => ?_
    obtain ⟨hxs,hxr,hxc⟩ := hcs x hx.1
    exact hx.2.trans (h.kept x hxs hxr (by simpa using hxc))
  fresh := by
    refine List.forall_mem_cons.mpr ⟨?_,fun x hx => ?_⟩
    · obtain ⟨hou,hos⟩ := h.fresh o (List.mem_singleton_self o)
      exact ⟨hrest.edits.mem hou,hos⟩
    · exact ⟨(hrest.fresh x hx).1,fun hxs => (hrest.fresh x hx).2 (h.edits.mem hxs)⟩
  kept m hm hmr hmcs := by
    obtain ⟨hmc,hmcs⟩ := not_or.mp (List.mem_cons.not.mp hmcs)
    exact (hrest.kept m (h.edits.mem hm) hmr hmcs).trans (h.kept m hm hmr (by simpa using hmc))

end Renewed

end Tally
end RobotCode
