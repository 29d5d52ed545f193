import RobotCode.Proofs.Halt
import RobotCode.Proofs.Measures
import RobotCode.Proofs.Profiles

/-! # Putting a statement into a block

Nothing is lost and nothing is there twice when a statement has been added to a block. What comes
from elsewhere makes the block larger by all that it holds. What comes from inside the block leaves
an empty block in its place there, and that is all that is new in the block.
-/
namespace RobotCode
open Store
variable {s t : Store} {n o p r : NodeId} {cs : List NodeId} {a pos : Argument} {i k : ℕ}
  {v w : Tree}

namespace Statement
open StoreM

/-- What a success says about the position and the argument, and what it leaves. -/
theorem of_add (hm : r ∈ s) (hk : a.Known s) (h : add r pos a s = .ok () t) :
    ∃ cs i n, s.read r = ⟨.block,cs⟩ ∧ pos.position s.text cs.length true = .ok (some i) ∧
      a = .statement n ∧ Free s r n ∧ t = (s.adopt n).write r ⟨.block,cs.insertIdx i s.next⟩ := by
  rcases add_cases hm pos hk with ⟨e,he⟩ | ⟨cs,n,hr,ha,hn,⟨i,hpos,hok⟩ | ⟨x,_,_,hfail⟩⟩
  · rw [he] at h
    cases h
  · rw [hok] at h
    cases h
    exact ⟨cs,i,n,hr,hpos,ha,hn,rfl⟩
  · rw [hfail] at h
    cases h

/-- `n` has gone into the block `r` at the position `k`, its state to the new node `o`. An empty
block has stayed in its place, and no other node has changed. -/
structure Inserted (s : Store) (r n o : NodeId) (k : ℕ) (t : Store) : Prop where
  block : s.read r = ⟨.block,(s.read r).children⟩
  position : k ≤ (s.read r).children.length
  read : t.read r = ⟨.block,(s.read r).children.insertIdx k o⟩
  fresh : o ∈ t ∧ o ∉ s
  value : ∃ w, s.tree? n = some w ∧ t.tree? o = some w
  emptied : t.read n = {}
  child_iff : ∀ p, t.Child p n ↔ s.Child p n
  kept : ∀ m ∈ s, m ≠ r → m ≠ n → t.read m = s.read m

/-- The results of the count, of the size and of the vector of a statement. -/
structure Measured (s : Store) (n : NodeId) (calls size : ℕ) (vector : List ℕ) : Prop where
  count : ∃ t, Tally.count (.statement n) s = .ok calls t
  size : Statement.size n s = .ok size s
  vector : ∃ f, Profile.of (.statement n) s = .ok f s ∧ f.vector = vector

theorem measured_of_holds (hs : s.Sound) (ha : s.Acyclic) (hn : n ∈ s) (hw : s.Holds n w)
    (hp : w.firstPending? = none) :
    Measured s n w.primitives.length w.size (Primitive.all.map fun p => w.primitives.count p) := by
  have hfull : ∀ {α : Type} (a : α), w.inFull a = .ok a := fun a => by rw [Tree.inFull, hp]
  obtain ⟨t,ht,_⟩ := Tally.count_of_holds hs ha hn hw hp
  refine ⟨⟨t,ht⟩,ask_of_ok ((hs.sizeOf_eq hw).trans (hfull _)),_,?_,
    Profile.vector_ofPrimitives w.primitives⟩
  exact ask_of_ok ((hs.profile_eq hw).trans (hfull _))

/-- A block into which a node from elsewhere has been written holds one part more. -/
theorem holds_insertIdx (hs : s.Sound) (ha : s.Acyclic) (hr : s.read r = ⟨.block,cs⟩)
    (hv : s.Holds r v) (hw : s.Holds o w) (ho : ¬ s.Within o r) (k : ℕ) :
    (s.write r ⟨.block,cs.insertIdx k o⟩).Holds o w ∧
      (s.write r ⟨.block,cs.insertIdx k o⟩).Holds r (.block (v.parts.insertIdx k w)) := by
  have hkeep : ∀ x u, s.Holds x u → ¬ s.Within x r →
      (s.write r ⟨.block,cs.insertIdx k o⟩).Holds x u := by
    intro x u hx hnot
    refine hx.congr fun m hm => read_write_of_ne ?_
    rintro rfl
    exact hnot hm
  have hparts := (hs.of_holds hv).2
  rw [hr] at hparts
  refine ⟨hkeep o w hw ho,holds_of_read (l := .block) (read_write_self ..) ?_⟩
  refine forall₂_insertIdx ((forall₂_with_mem hparts).imp fun c u hc => ?_) (hkeep o w hw ho) k
  have hrc : s.Child r c := by rw [Child, hr]; exact hc.1
  refine hkeep c u hc.2 fun hw => ?_
  exact ha r (hrc.below.within_trans hw)

/-- The new node holds the value of the old one. -/
theorem holds_adopt_next (hs : s.Sound) (ha : s.Acyclic) (hn : n ∈ s) (hw : s.Holds n w) :
    (s.adopt n).Holds s.next w := by
  refine hw.of_moved (read_adopt_next hn) fun m hm => read_adopt_of_ne ?_ (hs.mem_of_below hm)
  rintro rfl
  exact ha m hm

/-- What is adopted from elsewhere is not missing from the value. -/
theorem holds_adopt_of_not_below (hs : s.Sound) (hrm : r ∈ s) (hne : n ≠ r)
    (hb : ¬ s.Below r n) (hv : s.Holds r v) : (s.adopt n).Holds r v := by
  refine hv.congr fun m hm => read_adopt_of_ne ?_ (hs.mem_of_within hrm hm)
  rintro rfl
  rcases within_iff.mp hm with rfl | hm
  · exact hne rfl
  · exact hb hm

/-- What is adopted from within leaves an empty block in its place in the value. -/
theorem holds_adopt_of_below (hs : s.Sound) (ha : s.Acyclic) (hb : s.Below r n)
    (hv : s.Holds r v) (hw : s.Holds n w) :
    ∃ i path, v.at? (i :: path) = some w ∧ (s.adopt n).Holds r (v.emptyAt (i :: path)) := by
  obtain ⟨i,path,hpath⟩ := exists_follow? hb
  obtain ⟨u,hu,hnu⟩ := hs.at?_of_follow? hv hpath
  obtain rfl := hw.unique hnu
  have hne : r ≠ n := by
    rintro rfl
    exact ha r hb
  have hr := read_adopt_of_ne hne hb.mem
  refine ⟨i,path,hu,hs.holds_emptyAt ha hv hpath ?_ hr fun m hm hmn => ?_⟩
  · rw [read_adopt, if_pos rfl]
  · exact read_adopt_of_ne hmn (hs.mem_of_below hm)

/-- The parents of the node moved stay as they are, in the block as well. -/
theorem child_add_iff (ha : s.Acyclic) (hr : s.read r = ⟨.block,cs⟩) (hn : n ∈ s)
    (hk : k ≤ cs.length) :
    ((s.adopt n).write r ⟨.block,cs.insertIdx k s.next⟩).Child p n ↔ s.Child p n := by
  have hself : ¬ s.Child n n := fun h => ha n h.below
  rw [Child, Child, read_write]
  split
  next hp =>
    rw [hp, hr, List.mem_insertIdx hk]
    simp [ne_next hn]
  next =>
    rw [read_adopt]
    split
    next hp =>
      subst hp
      simpa [Child] using hself
    next =>
      split
      next hp =>
        rw [hp, read_next]
        simpa [Child] using hself
      next => rfl

theorem inserted_of_add (hs : s.Sound) (ha : s.Acyclic) (hrm : r ∈ s) (hk : a.Known s)
    (h : add r pos a s = .ok () t) :
    ∃ (n : NodeId) (k : ℕ), a = .statement n ∧ pos.whole? = some (k : ℤ) ∧ Free s r n ∧
      Inserted s r n s.next k t ∧ ∀ v w, (s.adopt n).Holds r v → s.Holds n w →
        t.Holds r (.block (v.parts.insertIdx k w)) := by
  have hedits : Edits True s t := (leads_add hs hrm hk).edits_of_ok h
  obtain ⟨cs,k,n,hr,hpos,rfl,hfree,ht⟩ := of_add hrm hk h
  have hadopt : Edits True s (s.adopt n) := hs.edits_adopt hfree.mem
  have hra : (s.adopt n).read r = ⟨.block,cs⟩ := (read_adopt_of_ne hfree.ne.symm hrm).trans hr
  have hnot := not_within_adopt hs hrm (hfree.insertable hs ha)
  have hholds : ∀ v w, (s.adopt n).Holds r v → s.Holds n w →
      t.Holds s.next w ∧ t.Holds r (.block (v.parts.insertIdx k w)) := fun v w hv hw =>
    ht ▸ holds_insertIdx (hadopt.sound hs) (hadopt.acyclic ha) hra hv
      (holds_adopt_next hs ha hfree.mem hw) hnot k
  obtain ⟨w,hw⟩ := exists_holds ha n
  obtain ⟨v,hv⟩ := exists_holds (hadopt.acyclic ha) r
  have hle := Argument.le_of_position hpos
  have hread : ∀ m, m ≠ r → t.read m = (s.adopt n).read m := fun m hm => by
    rw [ht, read_write_of_ne hm]
  refine ⟨n,k,rfl,(Argument.of_position hpos).1,hfree,?_,fun v w hv hw => (hholds v w hv hw).2⟩
  exact {
    block := by rw [hr]
    position := by rw [hr]; exact hle
    read := by rw [ht, hr, read_write_self]
    fresh := ⟨ht ▸ mem_write ((mem_adopt hfree.mem).mpr (Or.inr rfl)),s.next_not_mem⟩
    value := ⟨w,hw.tree?,(hholds v w hv hw).1.tree?⟩
    emptied := by rw [hread n hfree.ne, read_adopt, if_pos rfl]
    child_iff := fun p => by rw [ht]; exact child_add_iff ha hr hfree.mem hle
    kept := fun m hm hmr hmn => by rw [hread m hmr, read_adopt_of_ne hmn hm] }

/-- With one part more, a block has what it had and what the part has. -/
theorem measured_insertIdx (hs : s.Sound) (ha : s.Acyclic) (hr : r ∈ s) (hl : v.label = .block)
    (hk : k ≤ v.parts.length) (hv : v.firstPending? = none) (hw : w.firstPending? = none)
    (h : s.Holds r (.block (v.parts.insertIdx k w))) :
    Measured s r (v.primitives.length + w.primitives.length) (v.size + w.size)
      (Primitive.all.map fun q => v.primitives.count q + w.primitives.count q) := by
  have hmeasured := measured_of_holds hs ha hr h (Tree.firstPending?_insertIdx hv hw k)
  have hvector : ∀ q ∈ Primitive.all,
      (Tree.block (v.parts.insertIdx k w)).primitives.count q =
        v.primitives.count q + w.primitives.count q := fun q _ =>
    (Tree.additive_count_primitives q).insertIdx hl hk
  rwa [Tree.additive_length_primitives.insertIdx hl hk, Tree.additive_size.insertIdx hl hk,
    List.map_congr_left hvector] at hmeasured

/-- With a part that was inside, a block has one node more and the same calls. -/
theorem measured_insertIdx_emptyAt {path : List ℕ} (hs : s.Sound) (ha : s.Acyclic) (hr : r ∈ s)
    (hl : v.label = .block) (hk : k ≤ v.parts.length) (hv : v.firstPending? = none)
    (hw : w.firstPending? = none) (hat : v.at? (i :: path) = some w)
    (h : s.Holds r (.block ((v.emptyAt (i :: path)).parts.insertIdx k w))) :
    Measured s r v.primitives.length (v.size + 1)
      (Primitive.all.map fun q => v.primitives.count q) := by
  have hlabel : (v.emptyAt (i :: path)).label = .block := by rw [Tree.label_emptyAt, hl]
  have hlen : k ≤ (v.emptyAt (i :: path)).parts.length := by
    rwa [Tree.parts_emptyAt, List.length_modify]
  have hmeasured := measured_insertIdx hs ha hr hlabel hlen (Tree.firstPending?_emptyAt hv _) hw h
  have hcalls : (v.emptyAt (i :: path)).primitives.length + w.primitives.length =
      v.primitives.length := Tree.additive_length_primitives.emptyAt hat
  have hsize : (v.emptyAt (i :: path)).size + w.size = v.size + 1 :=
    Tree.additive_size.emptyAt hat
  have hvector : ∀ q ∈ Primitive.all, (v.emptyAt (i :: path)).primitives.count q +
      w.primitives.count q = v.primitives.count q := fun q _ =>
    (Tree.additive_count_primitives q).emptyAt hat
  rwa [hcalls, hsize, List.map_congr_left hvector] at hmeasured

end Statement

open Statement

/-- In a forest, a statement added to a block is a new child of it at the position given, between
the old ones in their order, and leaves an empty block in its own place. If nothing is taken apart
in the two, then with a statement from elsewhere the block gains all calls and nodes of it, and with
one from inside the block it gains one node and no calls. -/
theorem add_loses_nothing {allowed : Store → Command → Prop} (h : Reachable allowed s)
    (hf : s.Forest) (hr : r ∈ s) (hk : a.Known s) (hadd : Statement.add r pos a s = .ok () t) :
    ∃ (n o : NodeId) (k : ℕ), a = .statement n ∧ pos.whole? = some (k : ℤ) ∧
      Inserted s r n o k t ∧
      (s.Intact r → s.Intact n → ¬ s.Below r n → ∃ i j x y f g, Measured s r i x f ∧
        Measured s n j y g ∧ Measured t r (i + j) (x + y) (List.zipWith (· + ·) f g)) ∧
      (s.Intact r → s.Below r n → ∃ i x f, Measured s r i x f ∧ Measured t r i (x + 1) f) := by
  have hs := h.sound
  have ha := hf.acyclic
  have hedits : Edits True s t := (leads_add hs hr hk).edits_of_ok hadd
  obtain ⟨n,k,rfl,hpos,hfree,hins,hput⟩ := inserted_of_add hs ha hr hk hadd
  obtain ⟨v,hv⟩ := exists_holds ha r
  obtain ⟨w,hw⟩ := exists_holds ha n
  obtain ⟨hl,hparts⟩ := hs.of_holds hv
  rw [hins.block] at hl
  have hlen : k ≤ v.parts.length := hparts.length_eq ▸ hins.position
  have hst := hedits.sound hs
  have hat := hedits.acyclic ha
  have hrt := hedits.mem hr
  refine ⟨n,s.next,k,rfl,hpos,hins,fun hi hin hb => ?_,fun hi hb => ?_⟩
  · rw [hs.intact_iff hv] at hi
    rw [hs.intact_iff hw] at hin
    have hnew := hput v w (holds_adopt_of_not_below hs hr hfree.ne hb hv) hw
    refine ⟨_,_,_,_,_,_,measured_of_holds hs ha hr hv hi,
      measured_of_holds hs ha hfree.mem hw hin,?_⟩
    rw [List.zipWith_map, List.zipWith_self]
    exact measured_insertIdx hst hat hrt hl.symm hlen hi hin hnew
  · have hin := hi.of_within hb.within
    rw [hs.intact_iff hv] at hi
    rw [hs.intact_iff hw] at hin
    obtain ⟨i,path,hpart,hadopt⟩ := holds_adopt_of_below hs ha hb hv hw
    have hnew := hput _ w hadopt hw
    exact ⟨_,_,_,measured_of_holds hs ha hr hv hi,
      measured_insertIdx_emptyAt hst hat hrt hl.symm hlen hi hin hpart hnew⟩

/-- A body moved up into the block around its choice, and the choice moved into a spare block. -/
theorem add_loses_nothing_wrapped :
    (wrapped.Below ⟨5⟩ ⟨4⟩ ∧ ∃ t, Statement.add ⟨5⟩ (.int 0) (.statement ⟨4⟩) wrapped = .ok () t ∧
      (∃ o, Inserted wrapped ⟨5⟩ ⟨4⟩ o 0 t) ∧
      ∃ i x f, Measured wrapped ⟨5⟩ i x f ∧ Measured t ⟨5⟩ i (x + 1) f) ∧
    ¬ wrapped.Below ⟨0⟩ ⟨6⟩ ∧ ∃ t, Statement.add ⟨0⟩ (.int 0) (.statement ⟨6⟩) wrapped = .ok () t ∧
      (∃ o, Inserted wrapped ⟨0⟩ ⟨6⟩ o 0 t) ∧
      ∃ i j x y f g, Measured wrapped ⟨0⟩ i x f ∧ Measured wrapped ⟨6⟩ j y g ∧
        Measured t ⟨0⟩ (i + j) (x + y) (List.zipWith (· + ·) f g) := by
  have h := reachable_wrapped
  have hf := forest_wrapped
  have hchoice : wrapped.Child ⟨5⟩ ⟨6⟩ := List.mem_singleton_self _
  have hbody : wrapped.Child ⟨6⟩ ⟨4⟩ := List.mem_singleton_self _
  have hbelow : wrapped.Below ⟨5⟩ ⟨4⟩ := hchoice.below.trans hbody.below
  have hspare : ¬ wrapped.Below ⟨0⟩ ⟨6⟩ := not_below_of_empty rfl
  have hempty : wrapped.Intact ⟨0⟩ := by
    have hvalue : wrapped.tree? ⟨0⟩ = some (.block []) := rfl
    exact (h.sound.intact_iff (holds_of_tree? hvalue)).mpr rfl
  have hup : ∃ t, Statement.add ⟨5⟩ (.int 0) (.statement ⟨4⟩) wrapped = .ok () t := ⟨_,rfl⟩
  have haway : ∃ t, Statement.add ⟨0⟩ (.int 0) (.statement ⟨6⟩) wrapped = .ok () t := ⟨_,rfl⟩
  obtain ⟨t,ht⟩ := hup
  obtain ⟨u,hu⟩ := haway
  obtain ⟨n,o,k,hn,hk,hins,_,hin⟩ := add_loses_nothing h hf (by decide) (by decide) ht
  obtain ⟨m,p,j,hm,hj,hins',hout,_⟩ := add_loses_nothing h hf (by decide) (by decide) hu
  cases hn
  cases hm
  obtain rfl : k = 0 := Int.natCast_eq_zero.mp (Option.some.inj hk).symm
  obtain rfl : j = 0 := Int.natCast_eq_zero.mp (Option.some.inj hj).symm
  exact ⟨⟨hbelow,t,ht,⟨o,hins⟩,hin intact_wrapped.1 hbelow⟩,hspare,u,hu,⟨p,hins'⟩,
    hout hempty intact_wrapped.2 hspare⟩

end RobotCode
