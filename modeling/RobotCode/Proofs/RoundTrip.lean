import RobotCode.Proofs.Moves
import RobotCode.Proofs.Outputs
import RobotCode.Proofs.Places

/-! # Taken apart and put together again

A statement whose bodies have gone into empty blocks elsewhere can be put together from these at once,
wherever they are: none of them holds the statement, since nothing below it ever did. All is as before
then, but for the nodes that the bodies are.
-/
namespace RobotCode
open Store
open List (Forall₂)
variable {s t u : Store} {b m o r : NodeId} {g : Guarded} {c : Condition} {w : Tree}
  {bodies outs ns : List NodeId}

namespace Statement

/-- What can take a body of `r` and give it back: an empty block that does not lie below `r`. -/
structure Aside (s : Store) (r o : NodeId) : Prop where
  mem : o ∈ s
  empty : s.read o = {}
  not_below : ¬ s.Below r o

theorem Aside.ne (h : Aside s r o) (hr : s.read r = ⟨.guarded g c,bodies⟩) : o ≠ r := by
  rintro rfl
  have hempty := h.empty
  rw [hr] at hempty
  cases hempty

/-- A statement with the same test as before and with new children in the states of the old ones. Of
the other nodes only the old children have changed. -/
structure Restored (s : Store) (r : NodeId) (g : Guarded) (c : Condition) (bodies ns : List NodeId)
    (t : Store) : Prop where
  edits : Edits True s t
  read : t.read r = ⟨.guarded g c,ns⟩
  moved : Forall₂ (fun b n => t.read n = s.read b) bodies ns
  kept : ∀ m ∈ s, m ≠ r → m ∉ bodies → t.read m = s.read m

theorem Dismantled.restored {j : Kind} (h : Dismantled s r j bodies outs u)
    (ho : ∀ o ∈ outs, Aside s r o) (k : Closed u r g c outs ns t) : Restored s r g c bodies ns t where
  edits := h.edits.trans k.edits
  read := k.read
  moved := forall₂_join h.moved k.moved fun o b n _ _ hob hon => hon.trans hob
  kept m hm hmr hmb := by
    by_cases hmo : m ∈ outs
    · rw [k.emptied hmo (h.edits.mem hm) hmr, (ho m hmo).empty]
    · rw [k.kept (h.edits.mem hm) hmr hmo, h.kept hm hmr hmb hmo]

/-- An output that has taken a body can be put below `r` again. -/
theorem Dismantled.free (h : Dismantled s r g.kind bodies outs u) (hs : s.Sound) (ha : s.Acyclic)
    (hr : s.read r = ⟨.guarded g c,bodies⟩) (ho : ∀ o ∈ outs, Aside s r o)
    (hp : ∀ b ∈ bodies, (s.read b).label.awaited? = none) (hm : o ∈ outs) : Free u r o := by
  obtain ⟨b,hb,hob⟩ := exists_of_forall₂ h.moved hm
  have hrb : s.Child r b := (child_iff_of_read hr).mpr hb
  refine ⟨h.edits.mem (ho o hm).mem,(ho o hm).ne hr,?_,fun hbelow => ?_⟩
  · rw [hob]
    exact hp b hb
  · have hkept : ∀ m, s.Below b m → u.read m = s.read m := fun m hbm =>
      h.kept_below hs ha (by rw [hr]) (fun o hmo => (ho o hmo).not_below) hb hbm
    exact hrb.not_below ha ((Below.congr_of_moved hob hkept).mp hbelow)

/-- What is a child in the end, and not new, was one at the outset. -/
theorem Dismantled.exists_child_of_closed {j : Kind} {p : NodeId}
    (h : Dismantled s r j bodies outs u) (k : Closed u r g c outs ns t) (ho : ∀ o ∈ outs, o ≠ r)
    (hm : m ∈ s) (hpm : t.Child p m) : ∃ q, s.Child q m := by
  rcases k.exists_child ho hpm with hnew | ⟨q,_,hq⟩
  · exact absurd (h.edits.mem hm) hnew
  · exact h.exists_child hq

section Together
variable (h : Restored s r g c bodies ns t) (hs : s.Sound) (ha : s.Acyclic)
  (hr : s.read r = ⟨.guarded g c,bodies⟩)
include h hs ha hr

theorem Restored.kept_below (hb : b ∈ bodies) (hm : s.Below b m) : t.read m = s.read m := by
  have hrb : s.Child r b := (child_iff_of_read hr).mpr hb
  obtain ⟨hne,hnot⟩ := hs.ne_and_not_child_of_below ha hrb hm
  exact h.kept m (hs.mem_of_below hm) hne fun hmb => hnot ((child_iff_of_read hr).mpr hmb)

theorem Restored.holds_receiver (hw : s.Holds r w) : t.Holds r w := by
  obtain ⟨hl,hparts⟩ := hs.of_holds hw
  rw [hr] at hl hparts
  have hnew : Forall₂ t.Holds ns w.parts := forall₂_join h.moved hparts
    fun b n v hb _ hn hv => hv.of_moved hn fun m hm => h.kept_below hs ha hr hb hm
  have hhold : t.Holds r ((Label.guarded g c).tree w.parts) := holds_of_read h.read hnew
  have hlabel : Label.guarded g c = w.label := hl
  rwa [hlabel, w.tree_label] at hhold

/-- All nodes but the old children have the values that they had. -/
theorem Restored.holds (hm : m ∈ s) (hnot : m ∉ bodies) (hw : s.Holds m w) : t.Holds m w := by
  by_cases hrm : s.Below r m
  · obtain ⟨b,hrb,hbm⟩ := below_iff.mp hrm
    have hb : b ∈ bodies := (child_iff_of_read hr).mp hrb
    rcases within_iff.mp hbm with rfl | hbm
    · exact absurd hb hnot
    · exact hw.congr fun k hk => h.kept_below hs ha hr hb (hbm.within_trans hk)
  · refine hs.holds_of_replaced (fun k hk hrk => h.kept k hk ?_ fun hb => ?_)
      (fun v hv => h.holds_receiver hs ha hr hv) hw hm hrm
    · rintro rfl
      exact hrk (within_refl s k)
    · exact hrk ((child_iff_of_read hr).mpr hb).below.within

end Together

/-- A node that does not lie below `r` has the parent that it had. -/
theorem Restored.inPlace (h : Restored s r g c bodies ns t) (hs : s.Sound)
    (hr : s.read r = ⟨.guarded g c,bodies⟩) (hnot : ¬ s.Below r m)
    (hold : ∀ p, t.Child p m → ∃ q, s.Child q m) : s.InPlace t m := by
  refine (h.edits.sound hs).inPlace (fun p hp => h.kept p hp.mem ?_ fun hb => ?_) hold
  · rintro rfl
    exact hnot hp.below
  · exact hnot (((child_iff_of_read hr).mpr hb).below.trans hp.below)

end Statement

open Statement

/-- In a forest, a statement with assembled bodies can be taken apart into different empty blocks that
do not lie below it, and then be put together from them as it was. It has its old value again, and so
has every node but the old bodies; the blocks are empty again, where they were. -/
theorem assemble_undoes_disassemble {allowed : Store → Command → Prop} (h : Reachable allowed s)
    (hf : s.Forest) (hr : s.read r = ⟨.guarded g c,bodies⟩)
    (hp : ∀ b ∈ bodies, (s.read b).label.awaited? = none) (hlen : outs.length = g.arity)
    (hd : outs.Nodup) (ho : ∀ o ∈ outs, Aside s r o) :
    ∃ u t, disassemble g r (outs.map .statement) s = .ok c u ∧
      assemble g r (.condition c) (outs.map .statement) u = .ok () t ∧
      (∃ w, s.tree? r = some w ∧ t.tree? r = some w) ∧
      (∀ o ∈ outs, t.read o = {} ∧ s.InPlace t o) ∧
      ∀ m ∈ s, m ∉ bodies → ∃ w, s.tree? m = some w ∧ t.tree? m = some w := by
  have hs := h.sound
  have ha := hf.acyclic
  have hrs : r ∈ s := mem_of_read_ne_empty (by rw [hr]; exact nofun)
  have hchild : ∀ b, s.Child r b ↔ b ∈ bodies := fun b => child_iff_of_read hr
  have hrb : r ∉ bodies := fun hb => ha r ((hchild r).mpr hb).below
  have hob : ∀ o ∈ outs, o ∉ bodies := fun o hm hb =>
    (ho o hm).not_below ((hchild o).mpr hb).below
  have hclear : OutputsClear s r (outs.map .statement) := by
    intro n hn b hb hbn
    obtain ⟨o,hm,e⟩ := List.mem_map.mp hn
    cases e
    exact (ho n hm).not_below (hb.1.below.trans hbn)
  have hbodies : bodies.length = g.arity := hs.admits hr
  obtain ⟨u,hu,hapart⟩ := dismantled_disassemble hs hr (hlen.trans hbodies.symm) hd
    (fun o hm => (ho o hm).empty) (fun o hm => (ho o hm).mem) hob hp hrb hclear
  have hready : u.ready g.kind r = .ok () := ready_of_pending (by rw [hapart.read]; rfl)
  obtain ⟨ns,t,ht,hclose,_⟩ := closed_assemble c (hapart.edits.sound hs) (hapart.edits.acyclic ha)
    (hapart.edits.mem hrs) hready hd hlen fun o hm => hapart.free hs ha hr ho hp hm
  have hrest := hapart.restored ho hclose
  have hat : t.Acyclic := hrest.edits.acyclic ha
  have hvalues : ∀ m ∈ s, m ∉ bodies → ∃ w, s.tree? m = some w ∧ t.tree? m = some w := by
    intro m hm hnot
    obtain ⟨w,hw⟩ := exists_holds ha m
    exact ⟨w,hw.tree?,(hrest.holds hs ha hr hm hnot hw).tree?⟩
  refine ⟨u,t,hu,ht,hvalues r hrs hrb,fun o hm => ⟨?_,?_⟩,hvalues⟩
  · rw [hrest.kept o (ho o hm).mem ((ho o hm).ne hr) (hob o hm), (ho o hm).empty]
  · exact hrest.inPlace hs hr (ho o hm).not_below fun p hpo =>
      hapart.exists_child_of_closed hclose (fun o hm => (ho o hm).ne hr) (ho o hm).mem hpo

/-- A choice taken apart into a spare block and into one inside another statement. -/
theorem assemble_undoes_disassemble_nested : nested.Child ⟨5⟩ ⟨3⟩ ∧
    ∃ u t, disassembleIfElse ⟨10⟩ (.statement ⟨3⟩) (.statement ⟨0⟩) nested = .ok .always u ∧
      assembleIfElse ⟨10⟩ (.condition .always) (.statement ⟨3⟩) (.statement ⟨0⟩) u = .ok () t ∧
      (∃ w, nested.tree? ⟨10⟩ = some w ∧ t.tree? ⟨10⟩ = some w) ∧
      (∀ o ∈ [⟨3⟩,⟨0⟩], t.read o = {} ∧ nested.InPlace t o) ∧
      ∀ m ∈ nested, m ∉ [⟨11⟩,⟨12⟩] → ∃ w, nested.tree? m = some w ∧ t.tree? m = some w := by
  have hs := reachable_nested.sound
  have h₅ : nested.Child ⟨5⟩ ⟨3⟩ := List.mem_singleton_self _
  have hread : nested.read ⟨10⟩ = ⟨.guarded .ifElse .always,[⟨11⟩,⟨12⟩]⟩ := rfl
  have hbodies : ∀ b ∈ [⟨11⟩,⟨12⟩], (nested.read b).label.awaited? = none := by decide
  have hroot : nested.IsRoot ⟨0⟩ := by decide
  have hsearch : nested.reaches ⟨10⟩ ⟨3⟩ = .ok false := rfl
  have haside : ∀ o ∈ [⟨3⟩,⟨0⟩], Aside nested ⟨10⟩ o := by
    rintro o ho
    rcases List.mem_pair.mp ho with rfl | rfl
    · exact ⟨by decide,rfl,fun hb => Bool.false_ne_true ((reaches_eq_ok hsearch).mpr hb)⟩
    · exact ⟨by decide,rfl,hroot.not_below⟩
  have hdistinct : [(⟨3⟩ : NodeId),⟨0⟩].Nodup := by decide
  exact ⟨h₅,assemble_undoes_disassemble reachable_nested forest_nested hread hbodies rfl hdistinct
    haside⟩

end RobotCode
