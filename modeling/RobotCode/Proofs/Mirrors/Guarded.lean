import RobotCode.Proofs.Mirrors.Block

/-! # Guarded statements and calls in orchards

Taking a statement apart and putting it together, as seen on the trees of the roots.
-/
namespace RobotCode
open Store
open List (Forall₂)
variable {s t : Store} {o : Orchard} {c m n r : NodeId} {w : Tree} {g : Guarded}
  {outs bodies ns : List NodeId}

namespace Mirrors

theorem map_fst_parts (h : Mirrors s o) (hr : s.IsRoot r) :
    ((s.read r).children.zip (o r).parts).map Prod.fst = (s.read r).children :=
  List.map_fst_zip (Nat.le_of_eq (h.parts hr).length_eq)

/-- The outputs get the trees of the bodies. -/
theorem dismantled {test : Condition} (h : Mirrors s o) (hm : r ∈ s) (hr : s.IsRoot r)
    (hread : s.read r = ⟨.guarded g test,bodies⟩) (ho : ∀ p ∈ outs, p ∈ s ∧ s.IsRoot p)
    (he : ∀ p ∈ outs, s.read p = {}) (hd : Statement.Dismantled s r g.kind bodies outs t) :
    Renewed s o ((r,.pending g.kind) :: outs.zip (o r).parts) t := by
  have hchild : ∀ b, s.Child r b ↔ b ∈ bodies := fun b => child_iff_of_read hread
  have hparts : Forall₂ s.Holds bodies (o r).parts := by simpa [hread] using h.parts hr
  have hlen : outs.length = (o r).parts.length := hd.moved.length_eq.trans hparts.length_eq
  have hkeys : ((r,Tree.pending g.kind) :: outs.zip (o r).parts).map Prod.fst = r :: outs := by
    rw [List.map_cons, List.map_fst_zip (Nat.le_of_eq hlen)]
  have hold : ∀ p m, t.Child p m → m ∉ s ∨ ∃ q, s.Child q m := fun p m hp =>
    Or.inr (hd.exists_child hp)
  have hmoved : Forall₂ t.Holds outs (o r).parts := by
    apply forall₂_join hd.moved.flip hparts
    intro b p w hb _ hp hw
    refine hw.of_moved hp fun m hbm => ?_
    exact hd.kept_below h.sound h.acyclic (by rw [hread]) (fun p hpo => (ho p hpo).2.not_below) hb hbm
  refine h.renewed ⟨hd.edits,hd.reworks,?_,?_,?_,?_,?_⟩
  · rw [hkeys]
    rintro m (rfl | hmb | hmo)
    · exact ⟨m,List.mem_cons_self ..,hr,within_refl s m⟩
    · exact ⟨r,List.mem_cons_self ..,hr,((hchild m).mpr hmb).below.within⟩
    · exact ⟨m,List.mem_cons_of_mem _ hmo,(ho m hmo).2,within_refl s m⟩
  · rw [hkeys]
    exact fun m hm => Or.inl (List.mem_cons.mpr hm)
  · exact hold
  · intro q m hq
    by_cases hqr : q = r
    · exact Or.inl (Or.inr (Or.inl ((hchild m).mp (hqr ▸ hq))))
    by_cases hqo : q ∈ outs
    · rw [child_iff_of_read (he q hqo)] at hq
      exact absurd hq List.not_mem_nil
    refine Or.inr (Or.inr ?_)
    by_cases hqb : q ∈ bodies
    · obtain ⟨p,_,hp⟩ := exists_of_forall₂ hd.moved.flip hqb
      refine ⟨p,?_⟩
      rwa [Child, hp]
    · exact ⟨q,hd.reworks.child_of_not_mem (by simp [hqr, hqo, hqb]) hq⟩
  · intro u hu
    rcases List.mem_cons.mp hu with rfl | hu
    · exact ⟨isRoot_of_old hold hm hr,holds_of_read (l := .pending g.kind) hd.read .nil⟩
    · have hmem := (List.of_mem_zip hu).1
      exact ⟨isRoot_of_old hold (ho _ hmem).1 (ho _ hmem).2,List.forall₂_zip hmoved hu⟩

/-- A statement is put together from the trees of roots, and leaves what it held as roots. -/
theorem closed {test : Condition} (h : Mirrors s o) (hm : r ∈ s) (hr : s.IsRoot r)
    (ho : ∀ p ∈ outs, s.IsRoot p) (hf : ∀ p ∈ outs, Statement.Free s r p)
    (hc : Statement.Closed s r g test outs ns t) :
    (∀ c, s.Child r c → t.IsRoot c) ∧
      Renewed s o ((s.read r).children.zip (o r).parts ++
        (r,.guarded g test (outs.map o)) :: outs.map (·,.block [])) t := by
  have hkeys : ((s.read r).children.zip (o r).parts ++
      (r,Tree.guarded g test (outs.map o)) :: outs.map (·,Tree.block [])).map Prod.fst =
      (s.read r).children ++ r :: outs := by
    have hid : outs.map (Prod.fst ∘ fun p => (p,Tree.block [])) = outs := List.map_id outs
    rw [List.map_append, h.map_fst_parts hr, List.map_cons, List.map_map, hid]
  have hF : ∀ m ∈ insert r {m | m ∈ outs}, s.IsRoot m := by
    rintro m (rfl | hmo)
    · exact hr
    · exact ho m hmo
  have hpast : ∀ p m, t.Child p m → m ∉ s ∨ ∃ q, q ≠ r ∧ s.Child q m := fun p m =>
    hc.exists_child fun q hq => (hf q hq).ne
  have hold : ∀ p m, t.Child p m → m ∉ s ∨ ∃ q, s.Child q m := by
    intro p m hp
    exact (hpast p m hp).imp_right fun ⟨q,_,hq⟩ => ⟨q,hq⟩
  have hlost : ∀ c, s.Child r c → t.IsRoot c := by
    intro c hrc p hp
    rcases hpast p c hp with hcs | ⟨q,hqr,hq⟩
    · exact hcs (h.sound.mem_of_child hrc)
    · exact hqr (h.sound.parent_unique hq hrc)
  have hmoved : Forall₂ t.Holds ns (outs.map o) := by
    rw [List.forall₂_map_right_iff]
    refine (forall₂_with_mem hc.moved).flip.imp fun n q hq => ?_
    exact hc.reworks.holds_of_moved h.sound hF hq.2 (h.holds q (ho q hq.1))
  refine ⟨hlost,h.renewed ⟨hc.edits,hc.reworks,?_,?_,hold,?_,?_⟩⟩
  · rw [hkeys]
    intro m hmF
    refine ⟨m,List.mem_append_right _ ?_,hF m hmF,within_refl s m⟩
    exact List.mem_cons.mpr hmF
  · rw [hkeys]
    rintro m (rfl | hmn)
    · exact Or.inl (by simp)
    · obtain ⟨q,hq,hqm⟩ := exists_of_forall₂ hc.moved.flip hmn
      refine Or.inr ⟨⟨r,(child_iff_of_read hc.read).mpr hmn⟩,?_⟩
      rw [hqm]
      exact (hf q hq).assembled
  · rw [hkeys]
    intro q m hq
    right
    by_cases hqr : q = r
    · exact Or.inl (List.mem_append_left _ (hqr ▸ hq))
    right
    by_cases hqo : q ∈ outs
    · obtain ⟨p,_,hp⟩ := exists_of_forall₂ hc.moved hqo
      refine ⟨p,?_⟩
      rwa [Child, hp]
    · exact ⟨q,hc.reworks.child_of_not_mem (by simp [hqr, hqo]) hq⟩
  · intro u hu
    rcases List.mem_append.mp hu with hu | hu
    · have hrc : s.Child r u.1 := (List.of_mem_zip hu).1
      have hw := List.forall₂_zip (h.parts hr) hu
      exact ⟨hlost _ hrc,hc.reworks.holds_of_child h.sound hF hrc hw⟩
    rcases List.mem_cons.mp hu with rfl | hu
    · exact ⟨isRoot_of_old hold hm hr,holds_of_read (l := .guarded g test) hc.read hmoved⟩
    · obtain ⟨q,hq,rfl⟩ := List.mem_map.mp hu
      exact ⟨isRoot_of_old hold (hf q hq).mem (ho q hq),
        holds_of_empty (hc.emptied hq (hf q hq).mem (hf q hq).ne)⟩

theorem uncalled {name : String} {cs : List NodeId} (h : Mirrors s o) (hm : r ∈ s)
    (hr : s.IsRoot r) (hread : s.read r = ⟨.call name,cs⟩)
    (he : Edits True s (s.write r ⟨.pending .call,cs⟩)) :
    Renewed s o [(r,.pending .call)] (s.write r ⟨.pending .call,cs⟩) := by
  obtain rfl : cs = [] := h.sound.admits hread
  refine h.written hm hr he (by simp) (by simp) (fun c hc => ?_) fun u hu => ?_
  · exact absurd ((child_iff_of_read hread).mp hc) List.not_mem_nil
  · obtain rfl := List.mem_singleton.mp hu
    exact ⟨isRoot_write hr List.not_mem_nil,
      holds_of_read (l := .pending .call) (read_write_self ..) .nil⟩

/-- A statement becomes a call, and leaves what it held as roots. -/
theorem called {name : String} (h : Mirrors s o) (hm : r ∈ s) (hr : s.IsRoot r)
    (he : Edits True s (s.write r ⟨.call name,[]⟩)) :
    (∀ c, s.Child r c → (s.write r ⟨.call name,[]⟩).IsRoot c) ∧
      Renewed s o ((s.read r).children.zip (o r).parts ++ [(r,.call name)])
        (s.write r ⟨.call name,[]⟩) := by
  have hlost : ∀ c, s.Child r c → (s.write r ⟨.call name,[]⟩).IsRoot c := by
    intro c hc
    exact h.sound.isRoot_write hc List.not_mem_nil
  have hkeys : ((s.read r).children.zip (o r).parts ++ [(r,Tree.call name)]).map Prod.fst =
      (s.read r).children ++ [r] := by
    rw [List.map_append, h.map_fst_parts hr]
    rfl
  refine ⟨hlost,h.written hm hr he (by simp) (by simp [hkeys]) (fun c hc => ?_) fun u hu => ?_⟩
  · rw [hkeys]
    exact Or.inl (List.mem_append_left _ hc)
  · rcases List.mem_append.mp hu with hu | hu
    · have hc : s.Child r u.1 := (List.of_mem_zip hu).1
      exact ⟨hlost _ hc,h.sound.holds_write hm hr hc (List.forall₂_zip (h.parts hr) hu)⟩
    · obtain rfl := List.mem_singleton.mp hu
      exact ⟨isRoot_write hr List.not_mem_nil,
        holds_of_read (l := .call name) (read_write_self ..) .nil⟩

end Mirrors
end RobotCode
