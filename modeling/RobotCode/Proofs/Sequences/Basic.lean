import RobotCode.Proofs.Gathering
import RobotCode.Proofs.Texts

/-! # Blocks of calls

A list of names becomes a block of calls in two loops. The first makes a new call of each name, and
ends at the first thing that is no name; the second moves the calls into a new block. A call has
nothing below it, so that both work in any store, cycles in other statements or not.
-/
namespace RobotCode
open Relation Store
open List (Forall₂)
variable {s t u : Store} {c m n r : NodeId} {a : Argument} {name : String}
  {cs ds done ns : List NodeId} {names more : List String}

namespace Store

/-- `r` is a block of calls, one of each of the names, in their order. -/
structure Spells (s : Store) (r : NodeId) (names : List String) : Prop where
  label : (s.read r).label = .block
  calls : Forall₂ (fun c name => s.read c = ⟨.call name,[]⟩) (s.read r).children names

/-- A new node can become a statement of any kind. -/
theorem ready_next (s : Store) (k : Kind) : (s.push {}).ready k s.next = .ok () := by
  rw [ready_eq, read_push_next]
  rfl

end Store

namespace Statement

theorem call_eq (a : Argument) (s : Store) :
    call a s = (assembleCall s.next a >>= fun _ => pure s.next) (s.push {}) := rfl

theorem call_text (name : String) (s : Store) :
    call (.text name) s = .ok s.next ((s.push {}).write s.next ⟨.call name,[]⟩) := by
  rw [call_eq, bind_of_ok (assembleCall_of_ready (s.ready_next .call) name)]
  rfl

/-- Each of the new nodes `cs` is a call of one of the names, and no node of `s` has changed. -/
structure Called (s : Store) (names : List String) (cs : List NodeId) (t : Store) : Prop where
  edits : Edits True s t
  calls : Forall₂ (fun c name => t.read c = ⟨.call name,[]⟩) cs names
  fresh : ∀ c ∈ cs, c ∈ t ∧ c ∉ s
  nodup : cs.Nodup
  kept : ∀ m ∈ s, t.read m = s.read m

namespace Called

theorem nil (s : Store) : Called s [] [] s := ⟨.refl,.nil,by simp,.nil,fun _ _ => rfl⟩

theorem one (hs : s.Sound) (name : String) :
    Called s [name] [s.next] ((s.push {}).write s.next ⟨.call name,[]⟩) where
  edits := (leads_call hs (.text name)).edits_of_ok (call_text name s)
  calls := .cons (read_write_self ..) .nil
  fresh c hc := by
    obtain rfl := List.mem_singleton.mp hc
    exact ⟨mem_write s.next_mem_push,s.next_not_mem⟩
  nodup := List.nodup_singleton _
  kept m hm := by rw [read_write_of_ne (ne_next hm), read_push_empty]

theorem trans (h : Called s names cs t) (k : Called t more ds u) :
    Called s (names ++ more) (cs ++ ds) u where
  edits := h.edits.trans k.edits
  calls := List.rel_append
    ((forall₂_with_mem h.calls).imp fun c _ hc => (k.kept c (h.fresh c hc.1).1).trans hc.2) k.calls
  fresh c hc := by
    rcases List.mem_append.mp hc with hc | hc
    · exact ⟨k.edits.mem (h.fresh c hc).1,(h.fresh c hc).2⟩
    · exact ⟨(k.fresh c hc).1,fun hs => (k.fresh c hc).2 (h.edits.mem hs)⟩
  nodup := by
    refine List.nodup_append.mpr ⟨h.nodup,k.nodup,fun c hc d hd => ?_⟩
    rintro rfl
    exact (k.fresh c hd).2 (h.fresh c hc).1
  kept m hm := (k.kept m (h.edits.mem hm)).trans (h.kept m hm)

end Called

namespace Gathered

end Gathered

end Statement
end RobotCode
