import RobotCode.Proofs.Effects
import RobotCode.Proofs.Footprint

/-! # The footprints of moves

Putting a statement into another one touches the two statements and a new node. Taking a guarded
statement apart touches the statement, its bodies and the outputs; putting one together touches the
statement, what goes into it, and as many new nodes.
-/
namespace RobotCode
open Store
open List (Forall₂)
variable {s t : Store} {b c m o r : NodeId} {g : Guarded}

theorem Store.reworks_adopt (r : NodeId) (hc : c ∈ s) {v : Node} :
    s.Reworks {r,c} {r,s.next} ((s.adopt c).write r v) where
  size_le := by
    have h : s.size ≤ (s.adopt c).size := by
      have hin := size_transfer (mem_push.mpr (Or.inl hc)) s.next_mem_push
      rw [adopt, hin, size_push]
      omega
    rw [size_write]
    omega
  kept m hm hF := by
    rw [Set.mem_insert_iff, Set.mem_singleton_iff, not_or] at hF
    rw [read_write_of_ne hF.1, read_adopt_of_ne hF.2 hm]
  cleared m hm hG := by
    rw [Set.mem_insert_iff, Set.mem_singleton_iff, not_or] at hG
    rw [read_write_of_ne hG.1, read_adopt, if_neg hG.2]
    split
    next => rfl
    next hne =>
      apply read_of_not_mem
      rcases hm with hm | hm
      · exact absurd hm (by simp [hG.1, hne])
      · exact hm

namespace Statement
open StoreM

/-- A guarded statement taken apart into empty blocks. -/
structure Dismantled (s : Store) (r : NodeId) (k : Kind) (bodies outs : List NodeId) (t : Store) :
    Prop where
  edits : Edits True s t
  reworks : s.Reworks (insert r {m | m ∈ bodies ∨ m ∈ outs}) (insert r {m | m ∈ outs}) t
  read : t.read r = ⟨.pending k,[]⟩
  moved : Forall₂ (fun o b => t.read o = s.read b) outs bodies

namespace Dismantled
variable {k : Kind} {bodies outs : List NodeId}

/-- The only children anywhere are old ones. -/
theorem exists_child {p : NodeId} (h : Dismantled s r k bodies outs t) (hp : t.Child p m) :
    ∃ q, s.Child q m := by
  rcases h.reworks.exists_child h.moved hp with rfl | ⟨q,_,hq⟩
  · exact absurd ((child_iff_of_read h.read).mp hp) List.not_mem_nil
  · exact ⟨q,hq⟩

theorem kept (h : Dismantled s r k bodies outs t) (hm : m ∈ s) (hr : m ≠ r) (hb : m ∉ bodies)
    (ho : m ∉ outs) : t.read m = s.read m :=
  h.reworks.kept m hm fun hF => hF.elim hr fun hF => hF.elim hb ho

/-- A body goes with all that lies below it, if no output lies there. -/
theorem kept_below (h : Dismantled s r k bodies outs t) (hs : s.Sound) (ha : s.Acyclic)
    (hr : (s.read r).children = bodies) (ho : ∀ o ∈ outs, ¬ s.Below r o) (hb : b ∈ bodies)
    (hm : s.Below b m) : t.read m = s.read m := by
  have hrb : s.Child r b := by rwa [Child, hr]
  obtain ⟨hne,hnot⟩ := hs.ne_and_not_child_of_below ha hrb hm
  rw [Child, hr] at hnot
  exact h.kept (hs.mem_of_below hm) hne hnot fun hmo => ho m hmo (hrb.below.trans hm)

end Dismantled

theorem dismantled_disassemble {test : Condition} {outs bodies : List NodeId} (hs : s.Sound)
    (hr : s.read r = ⟨.guarded g test,bodies⟩) (hlen : outs.length = bodies.length)
    (ho : outs.Nodup) (he : ∀ o ∈ outs, s.read o = {}) (hos : ∀ o ∈ outs, o ∈ s)
    (hd : ∀ o ∈ outs, o ∉ bodies) (hp : ∀ b ∈ bodies, (s.read b).label.awaited? = none)
    (hrb : r ∉ bodies) (hclear : OutputsClear s r (outs.map .statement)) :
    ∃ t, disassemble g r (outs.map .statement) s = .ok test t ∧
      Dismantled s r g.kind bodies outs t := by
  have hm : r ∈ s := mem_of_read_ne_empty (by simp [hr])
  obtain ⟨t,ht,_,hrt,hmoved,hempty,hrest⟩ :=
    disassemble_of_guarded hs hr hlen ho he hos hd hp hrb
  have hedits : Edits True s t := by
    have hknown : ∀ a ∈ outs.map Argument.statement, a.Known s := by
      intro a ha
      obtain ⟨o,h,rfl⟩ := List.mem_map.mp ha
      exact Argument.known_statement (hos o h)
    have hself : ¬ s.Body r r := fun h => hrb ((child_iff_of_read hr).mp h.1)
    exact (leads_disassemble hs hm hknown (fun _ => hclear) fun _ => hself).edits_of_ok ht
  refine ⟨t,ht,hedits,⟨hedits.size_le,fun m _ hF => ?_,fun m hF hG => ?_⟩,hrt,hmoved⟩
  · rw [Set.mem_insert_iff, Set.mem_ofPred_eq, not_or, not_or] at hF
    exact hrest m hF.1 hF.2.2 hF.2.1
  · rw [Set.mem_insert_iff, Set.mem_ofPred_eq, not_or] at hG
    by_cases hb : m ∈ bodies
    · exact hempty m hb
    · rw [hrest m hG.1 hG.2 hb]
      apply read_of_not_mem
      apply hF.resolve_left
      rintro (h | h | h)
      · exact hG.1 h
      · exact hb h
      · exact hG.2 h

/-- A statement put together from free statements. -/
structure Closed (s : Store) (r : NodeId) (g : Guarded) (test : Condition)
    (outs bodies : List NodeId) (t : Store) : Prop where
  edits : Edits True s t
  reworks : s.Reworks (insert r {m | m ∈ outs}) (insert r {m | m ∈ bodies}) t
  read : t.read r = ⟨.guarded g test,bodies⟩
  fresh : ∀ b ∈ bodies, b ∉ s
  moved : Forall₂ (fun o b => t.read b = s.read o) outs bodies

namespace Closed
variable {test : Condition} {outs bodies : List NodeId}

theorem kept (h : Closed s r g test outs bodies t) (hm : m ∈ s) (hr : m ≠ r) (ho : m ∉ outs) :
    t.read m = s.read m :=
  h.reworks.kept m hm fun hF => hF.elim hr ho

theorem emptied (h : Closed s r g test outs bodies t) (ho : o ∈ outs) (hm : o ∈ s) (hr : o ≠ r) :
    t.read o = {} :=
  h.reworks.cleared o (Or.inl (Or.inr ho)) fun hG => hG.elim hr fun hb => h.fresh o hb hm

/-- Children that are not new are children of what they were children of, or of its new place. -/
theorem exists_child {p : NodeId} (h : Closed s r g test outs bodies t) (hr : ∀ o ∈ outs, o ≠ r)
    (hp : t.Child p m) : m ∉ s ∨ ∃ q, q ≠ r ∧ s.Child q m := by
  rcases h.reworks.exists_child h.moved.flip hp with rfl | ⟨q,hq | hq,hqm⟩
  · exact Or.inl (h.fresh m ((child_iff_of_read h.read).mp hp))
  · exact Or.inr ⟨q,hr q hq,hqm⟩
  · exact Or.inr ⟨q,fun e => hq (Or.inl e),hqm⟩

end Closed

/-- The new nodes are the bodies. -/
theorem closed_assemble (test : Condition) {outs : List NodeId} (hs : s.Sound) (ha : s.Acyclic)
    (hm : r ∈ s) (hready : s.ready g.kind r = .ok ()) (hd : outs.Nodup)
    (hlen : outs.length = g.arity)
    (hf : ∀ o ∈ outs, Free s r o) :
    ∃ ns t, assemble g r (.condition test) (outs.map .statement) s = .ok () t ∧
      Closed s r g test outs ns t ∧ ∀ m, m ∈ t ↔ m ∈ s ∨ m ∈ ns := by
  obtain ⟨ns,t,ht,_,hfresh,hmem,hrt,hmoved,hempty,hrest⟩ := assemble_of_free (c := test) hs ha hm
    hready hd hf
  have he : Edits True s t := by
    have hknown : ∀ a ∈ outs.map Argument.statement, a.Known s := by
      intro a ha
      obtain ⟨o,h,rfl⟩ := List.mem_map.mp ha
      exact Argument.known_statement (hf o h).mem
    exact (leads_assemble hs hm hknown (by rw [List.length_map, hlen])).edits_of_ok ht
  refine ⟨ns,t,ht,⟨he,⟨he.size_le,fun m hms hF => ?_,fun m hF hG => ?_⟩,hrt,hfresh,hmoved⟩,hmem⟩
  · rw [Set.mem_insert_iff, not_or] at hF
    exact hrest m hF.1 hF.2 fun h => hfresh m h hms
  · rw [Set.mem_insert_iff, not_or] at hG
    by_cases ho : m ∈ outs
    · exact hempty m ho
    · rw [hrest m hG.1 ho hG.2]
      apply read_of_not_mem
      apply hF.resolve_left
      rintro (h | h)
      · exact hG.1 h
      · exact ho h

end Statement
end RobotCode
