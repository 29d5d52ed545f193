import RobotCode.Proofs.Steps

/-! # What operations do when they succeed

For every operation a condition under which it succeeds, and the store it then leaves. Stores are
described by what is read in them: paths and values depend on nothing else. Adding to a block, which
can fail after it has changed something, is described in all its outcomes.
-/
namespace RobotCode
open Store
open List (Forall₂)

section Runs
variable {ε σ α β : Type} {x : EStateM ε σ α} {f : α → EStateM ε σ β} {i j : σ} {a : α} {e : ε}

theorem bind_of_ok (h : x i = .ok a j) : (x >>= f) i = f a j := by
  simp only [bind, EStateM.bind, h]

theorem bind_of_error (h : x i = .error e j) : (x >>= f) i = .error e j := by
  simp only [bind, EStateM.bind, h]

theorem exists_of_bind_ok {b : β} (h : (x >>= f) i = .ok b j) :
    ∃ a k, x i = .ok a k ∧ f a k = .ok b j := by
  cases hx : x i with
  | error e k =>
    rw [bind_of_error hx] at h
    cases h
  | ok a k =>
    rw [bind_of_ok hx] at h
    exact ⟨a,k,rfl,h⟩

theorem exists_of_bind_error (h : (x >>= f) i = .error e j) :
    x i = .error e j ∨ ∃ a k, x i = .ok a k ∧ f a k = .error e j := by
  cases hx : x i with
  | error d k =>
    rw [bind_of_error hx] at h
    cases h
    exact Or.inl rfl
  | ok a k =>
    rw [bind_of_ok hx] at h
    exact Or.inr ⟨a,k,rfl,h⟩

end Runs

theorem StoreM.of_ask {α : Type} {f : Store → Except Fault α} {s t : Store} {a : α}
    (h : ask f s = .ok a t) : f s = .ok a ∧ t = s := by
  unfold ask at h
  split at h
  next hf =>
    cases h
    exact ⟨hf,rfl⟩
  next => cases h

theorem StoreM.eq_of_ask_error {α : Type} {f : Store → Except Fault α} {s t : Store} {e : Fault}
    (h : ask f s = .error e t) : t = s := by
  unfold ask at h
  split at h
  next => cases h
  next =>
    cases h
    rfl

variable {s t : Store} {r n c : NodeId} {cs : List NodeId} {l : Label} {g : Guarded}
  {pos a test : Argument} {i : ℕ}

namespace Statement
variable {α : Type} {f : Cell → α}

theorem field_of_none (h : (s.read r).label.awaited? = none) :
    field f r s = .ok (f (s.cell r)) s := by
  unfold field
  rw [bind_of_ok (StoreM.ask_of_ok (fields_of_none h))]
  rfl

theorem field_of_error {e : Fault} (h : s.assembled r = .error e) : field f r s = .error e s := by
  unfold field
  rw [bind_of_error (StoreM.ask_of_error (fields_of_error h))]

end Statement

namespace Argument
variable {k : ℕ} {closed : Bool} {text : NodeId → Except Fault String}

/-- The whole number that is given as a position; truth values count as 0 and 1. -/
def whole? : Argument → Option ℤ
  | .int i => some i
  | .bool b => some (if b then 1 else 0)
  | _ => none

/-- What a position among `k` places comes to: a place, a number between places, or a refusal. -/
inductive Positioned (k : ℕ) (closed : Bool) : Argument → Except Fault (Option ℕ) → Prop
  | place {pos : Argument} {i : ℕ} (hpos : pos.whole? = some (i : ℤ)) (h : i < k ∨ closed ∧ i = k) :
      Positioned k closed pos (.ok (some i))
  | between {x : Binary64} (h : x.within k closed) : Positioned k closed (.real x) (.ok none)
  | refused {pos : Argument} {e : Fault} (h : e ≠ .endless) : Positioned k closed pos (.error e)

theorem positioned_of_whole {j : ℤ} {e : Fault} (hpos : pos.whole? = some j) (he : e ≠ .endless) :
    Positioned k closed pos
      (if 0 ≤ j ∧ (j < k ∨ closed ∧ j = k) then .ok (some j.toNat) else .error e) := by
  split
  next h =>
    obtain ⟨i,rfl⟩ := Int.eq_ofNat_of_zero_le h.1
    exact .place hpos (h.2.imp Int.ofNat_lt.mp (And.imp_right Int.ofNat_inj.mp))
  next => exact .refused he

/-- Nothing that is a position holds a statement, so that no text plays a part. -/
theorem positioned (text : NodeId → Except Fault String) (k : ℕ) (closed : Bool) :
    (pos : Argument) → Positioned k closed pos (pos.position text k closed)
  | .int _ | .bool _ => positioned_of_whole rfl nofun
  | .real x => by
    simp only [position]
    split
    next h => exact .between h
    next => exact .refused nofun
  | .nothing | .text _ | .list _ | .mapping _ | .kind _ | .condition _ | .statement _ =>
    .refused nofun

theorem position_int (h : i < k ∨ closed ∧ i = k) :
    (Argument.int i).position text k closed = .ok (some i) := by
  have hrange : (0 : ℤ) ≤ i ∧ ((i : ℤ) < k ∨ closed ∧ (i : ℤ) = k) :=
    ⟨Int.natCast_nonneg i,h.imp Int.ofNat_lt.mpr (And.imp_right (congrArg Nat.cast))⟩
  simp only [position, if_pos hrange, Int.toNat_natCast]

/-- A position that names a place is within range. -/
theorem of_position (h : pos.position text k closed = .ok (some i)) :
    pos.whole? = some (i : ℤ) ∧ (i < k ∨ closed ∧ i = k) := by
  have hp := positioned text k closed pos
  rw [h] at hp
  obtain ⟨hpos,hi⟩ | _ | _ := hp
  exact ⟨hpos,hi⟩

theorem le_of_position (h : pos.position text k true = .ok (some i)) : i ≤ k :=
  (of_position h).2.elim Nat.le_of_lt fun hi => Nat.le_of_eq hi.2

/-- Only a real number can be within range without naming a place. -/
theorem eq_real_of_position (h : pos.position text k closed = .ok none) :
    ∃ x, pos = .real x ∧ x.within k closed := by
  have hp := positioned text k closed pos
  rw [h] at hp
  obtain _ | hx | _ := hp
  exact ⟨_,rfl,hx⟩

end Argument

theorem Store.mem_of_read_ne_empty (h : s.read n ≠ {}) : n ∈ s := by
  by_contra hn
  exact h (read_of_not_mem hn)

theorem Store.expect_of_read (hr : s.read r = ⟨l,cs⟩) (hl : l.awaited? = none) :
    s.expect l.kind r = .ok ⟨l,cs⟩ := by
  have hp : s.assembled r = .ok ⟨l,cs⟩ := assembled_eq_ok_iff.mpr ⟨by rw [hr]; exact hl,hr⟩
  exact expect_eq_ok_iff.mpr ⟨hp,rfl⟩

theorem Store.read_of_expect_block {v : Node} (h : s.expect .block r = .ok v) :
    s.read r = ⟨.block,v.children⟩ := by
  obtain ⟨hv,hkind⟩ := expect_eq_ok_iff.mp h
  obtain ⟨hp,rfl⟩ := assembled_eq_ok_iff.mp hv
  rw [← Label.eq_block hp hkind]

namespace Statement
open StoreM

theorem length_of_block (hr : s.read r = ⟨.block,cs⟩) : length r s = .ok cs.length s := by
  have he : s.expect .block r = .ok ⟨.block,cs⟩ := expect_of_read hr rfl
  unfold length
  rw [bind_of_ok (ask_of_ok he)]
  rfl

theorem remove_of_block (hr : s.read r = ⟨.block,cs⟩)
    (hp : pos.position s.text cs.length false = .ok (some i)) (hi : cs[i]? = some c) :
    remove r pos s = .ok c (s.write r ⟨.block,cs.eraseIdx i⟩) := by
  have he : s.expect .block r = .ok ⟨.block,cs⟩ := expect_of_read hr rfl
  unfold remove
  rw [bind_of_ok (ask_of_ok he), bind_of_ok (ask_of_ok hp)]
  simp only [place, pure_bind, hi]
  have hl : (s.read r).label = .block := by rw [hr]
  rw [bind_of_ok (modify_children hl)]
  rfl

theorem takeOver_of_insertable (hi : s.insertable r a = .ok n) (hn : n ∈ s) :
    takeOver r a s = .ok s.next (s.adopt n) :=
  takeOver_of_ok hi hn (of_insertable hi).2.2.1

theorem add_of_block (hr : s.read r = ⟨.block,cs⟩)
    (hm : r ∈ s) (hp : pos.position s.text cs.length true = .ok (some i))
    (hi : s.insertable r a = .ok n) (hn : n ∈ s) :
    add r pos a s = .ok () ((s.adopt n).write r ⟨.block,cs.insertIdx i s.next⟩) := by
  have he : s.expect .block r = .ok ⟨.block,cs⟩ := expect_of_read hr rfl
  unfold add
  rw [bind_of_ok (ask_of_ok he), bind_of_ok (ask_of_ok hp)]
  rw [bind_of_ok (takeOver_of_insertable hi hn)]
  have hl : ((s.adopt n).read r).label = .block := by
    rw [read_adopt_of_ne (of_insertable hi).2.1.symm hm, hr]
  exact modify_children hl

/-- A real number within range is found to name no place when the argument has been moved. -/
theorem add_of_real {x : Binary64} (hr : s.read r = ⟨.block,cs⟩) (hx : x.within cs.length true)
    (hi : s.insertable r a = .ok n) (hn : n ∈ s) :
    add r (.real x) a s = .error (.notAnIndex "float") (s.adopt n) := by
  have he : s.expect .block r = .ok ⟨.block,cs⟩ := expect_of_read hr rfl
  have hp : (Argument.real x).position s.text cs.length true = .ok none := if_pos hx
  unfold add
  rw [bind_of_ok (ask_of_ok he), bind_of_ok (ask_of_ok hp),
    bind_of_ok (takeOver_of_insertable hi hn)]
  rfl

theorem emptyOutput_of_empty (h : s.read n = {}) : s.emptyOutput (.statement n) = .ok n := by
  have hp : s.assembled n = .ok {} := assembled_eq_ok_iff.mpr ⟨by rw [h]; rfl,h⟩
  rw [emptyOutput_eq, hp]
  rfl

theorem mapM_emptyOutput {outs : List NodeId} (h : ∀ o ∈ outs, s.read o = {}) :
    (outs.map Argument.statement).mapM s.emptyOutput = .ok outs := by
  rw [mapM_eq_ok_iff, List.forall₂_map_left_iff, List.forall₂_same]
  exact fun o ho => emptyOutput_of_empty (h o ho)

theorem requireDistinct_of_nodup {v : Violation} {ns : List NodeId} (h : ns.Nodup) :
    requireDistinct v ns s = .ok () s := by
  unfold requireDistinct
  rw [if_pos h]
  rfl

/-- Moves between different nodes give each target what its source had at the outset. -/
theorem moves_of_disjoint {os bs : List NodeId} (hlen : os.length = bs.length) (ho : os.Nodup)
    (hb : bs.Nodup) (hd : ∀ o ∈ os, o ∉ bs) (hp : ∀ b ∈ bs, (s.read b).label.awaited? = none)
    (hos : ∀ o ∈ os, o ∈ s) (hbs : ∀ b ∈ bs, b ∈ s) :
    ∃ t, (os.zip bs).forM (fun p => move p.2 p.1) s = .ok () t ∧ t.size = s.size ∧
      Forall₂ (fun o b => t.read o = s.read b) os bs ∧ (∀ b ∈ bs, t.read b = {}) ∧
      ∀ m, m ∉ os → m ∉ bs → t.read m = s.read m := by
  rw [List.forM_eq_forM]
  induction os generalizing bs s with
  | nil =>
    obtain rfl := List.length_eq_zero_iff.mp hlen.symm
    exact ⟨s,rfl,rfl,.nil,by simp,fun _ _ _ => rfl⟩
  | cons o os ih =>
    obtain _ | ⟨b,bs⟩ := bs
    · simp at hlen
    rw [List.nodup_cons] at ho hb
    have hob := hd o (List.mem_cons_self ..)
    rw [List.mem_cons, not_or] at hob
    have hd' : ∀ x ∈ os, x ≠ b ∧ x ∉ bs := by
      intro x hx
      have h := hd x (List.mem_cons_of_mem _ hx)
      rwa [List.mem_cons, not_or] at h
    have hmem := hos o (List.mem_cons_self ..)
    have hbm := hbs b (List.mem_cons_self ..)
    have hsize : (s.transfer b o).size = s.size := size_transfer hbm hmem
    have hin : ∀ {m}, m ∈ s → m ∈ s.transfer b o := fun hm => by rwa [mem_iff, hsize]
    have hread : ∀ m, m ≠ b → m ≠ o → (s.transfer b o).read m = s.read m := by
      intro m hmb hmo
      rw [read_transfer, if_neg hmb, if_neg hmo]
    have hbread : ∀ c ∈ bs, (s.transfer b o).read c = s.read c := by
      intro c hc
      apply hread c
      · rintro rfl
        exact hb.1 hc
      · rintro rfl
        exact hob.2 hc
    obtain ⟨t,ht,hsz,hmoved,hempty,hrest⟩ := ih (by simpa using hlen) ho.2 hb.2
      (fun x hx => (hd' x hx).2)
      (fun c hc => by rw [hbread c hc]; exact hp c (List.mem_cons_of_mem _ hc))
      (fun x hx => hin (hos x (List.mem_cons_of_mem _ hx)))
      (fun c hc => hin (hbs c (List.mem_cons_of_mem _ hc)))
    have hmove : move b o s = .ok () (s.transfer b o) := move_of_none (hp b (List.mem_cons_self ..))
    refine ⟨t,?_,hsz.trans hsize,.cons ?_ ?_,?_,?_⟩
    · rw [List.zip_cons_cons, List.forM_cons, bind_of_ok hmove]
      exact ht
    · rw [hrest o ho.1 hob.2, read_transfer, if_neg hob.1, if_pos rfl]
    · exact (forall₂_with_mem hmoved.flip).flip.imp fun x c h => h.2.trans (hbread c h.1)
    · intro c hc
      rcases List.mem_cons.mp hc with rfl | hc
      · rw [hrest c (fun h => (hd' c h).1 rfl) hb.1, read_transfer, if_pos rfl]
      · exact hempty c hc
    · intro m hm hmb
      rw [List.mem_cons, not_or] at hm hmb
      rw [hrest m hm.2 hmb.2, hread m hmb.1 hm.1]

theorem guardedParts_of_guarded {test : Condition} (hr : s.read r = ⟨.guarded g test,cs⟩) :
    guardedParts g r s = .ok (test,cs) s := by
  have hx : s.expect g.kind r = .ok ⟨.guarded g test,cs⟩ := expect_of_read hr rfl
  unfold guardedParts
  rw [bind_of_ok (ask_of_ok hx)]
  rfl

/-- With different empty blocks for outputs, what remains to be done are the moves. -/
theorem disassemble_eq_moves {test : Condition} {outs : List NodeId}
    (hr : s.read r = ⟨.guarded g test,cs⟩) (ho : outs.Nodup) (he : ∀ o ∈ outs, s.read o = {}) :
    disassemble g r (outs.map .statement) s =
      ((outs.zip cs).forM (fun p => move p.2 p.1) >>= fun _ =>
        write r ⟨.pending g.kind,[]⟩ >>= fun _ => pure test) s := by
  unfold disassemble
  rw [bind_of_ok (guardedParts_of_guarded hr)]
  dsimp only
  rw [bind_of_ok (ask_of_ok (mapM_emptyOutput he)), bind_of_ok (requireDistinct_of_nodup ho),
    modify_apart]

/-- A statement taken apart into empty blocks elsewhere: each takes a body, the bodies are left
empty, and the statement itself awaits being put together. -/
theorem disassemble_of_guarded {test : Condition} {outs bodies : List NodeId} (hs : s.Sound)
    (hr : s.read r = ⟨.guarded g test,bodies⟩) (hlen : outs.length = bodies.length)
    (ho : outs.Nodup) (he : ∀ o ∈ outs, s.read o = {}) (hos : ∀ o ∈ outs, o ∈ s)
    (hd : ∀ o ∈ outs, o ∉ bodies) (hp : ∀ b ∈ bodies, (s.read b).label.awaited? = none)
    (hrb : r ∉ bodies) :
    ∃ t, disassemble g r (outs.map .statement) s = .ok test t ∧ t.size = s.size ∧
      t.read r = ⟨.pending g.kind,[]⟩ ∧ Forall₂ (fun o b => t.read o = s.read b) outs bodies ∧
      (∀ b ∈ bodies, t.read b = {}) ∧
      ∀ m, m ≠ r → m ∉ outs → m ∉ bodies → t.read m = s.read m := by
  have hnodup : bodies.Nodup := hs.nodup_of_read hr
  have hbs : ∀ b ∈ bodies, b ∈ s := fun b hb => hs.mem_of_child (by rw [Child, hr]; exact hb)
  have hro : r ∉ outs := by
    intro h
    have := he r h
    simp [hr] at this
  obtain ⟨t,ht,hsize,hmoved,hempty,hrest⟩ := moves_of_disjoint hlen ho hnodup hd hp hos hbs
  have hrm : r ∈ t := by
    rw [mem_iff, hsize]
    apply mem_of_read_ne_empty
    simp [hr]
  refine ⟨t.write r ⟨.pending g.kind,[]⟩,?_,?_,?_,?_,?_,?_⟩
  · rw [disassemble_eq_moves hr ho he, bind_of_ok ht]
    rfl
  · rw [size_write_of_mem hrm, hsize]
  · exact read_write_self ..
  · refine (forall₂_with_mem hmoved).imp fun o b h => ?_
    have hne : o ≠ r := by
      rintro rfl
      exact hro h.1
    rw [read_write_of_ne hne, h.2]
  · intro b hb
    have hne : b ≠ r := by
      rintro rfl
      exact hrb hb
    rw [read_write_of_ne hne, hempty b hb]
  · intro m hm hmo hmb
    rw [read_write_of_ne hm, hrest m hmo hmb]

theorem disassembleCall_of_call {name : String} (hr : s.read r = ⟨.call name,cs⟩) :
    disassembleCall r s = .ok name (s.write r ⟨.pending .call,cs⟩) := by
  have he : s.expect .call r = .ok ⟨.call name,cs⟩ := expect_of_read hr rfl
  unfold disassembleCall
  rw [bind_of_ok (ask_of_ok he)]
  dsimp only
  rw [bind_of_ok (modify_uncalled s r), hr]
  rfl

theorem ready_of_pending {k : Kind} (h : (s.read r).label.awaited? = some k) :
    s.ready k r = .ok () := by
  rw [ready_eq, h]
  exact if_pos rfl

/-- What can be put below `r`: an assembled statement other than `r` that does not hold `r`. -/
structure Free (s : Store) (r n : NodeId) : Prop where
  mem : n ∈ s
  ne : n ≠ r
  assembled : (s.read n).label.awaited? = none
  not_below : ¬ s.Below n r

theorem Free.insertable (h : Free s r n) (hs : s.Sound) (ha : s.Acyclic) :
    s.insertable r (.statement n) = .ok n :=
  hs.insertable_statement ha h.ne h.assembled h.not_below

theorem free_of_insertable (hk : a.Known s) (h : s.insertable r a = .ok n) :
    a = .statement n ∧ Free s r n := by
  obtain ⟨rfl,hne,hp,hb⟩ := of_insertable h
  exact ⟨rfl,⟨hk n rfl,hne,hp,hb⟩⟩

theorem Free.adopt {m : NodeId} (h : Free s r n) (hs : s.Sound) (hm : m ∈ s) (hne : n ≠ m) :
    Free (s.adopt m) r n where
  mem := (mem_adopt hm).mpr (Or.inl h.mem)
  ne := h.ne
  assembled := by rw [read_adopt_of_ne hne h.mem]; exact h.assembled
  not_below hb := by
    rcases hs.below_adopt hb with hb | ⟨e,_⟩
    · exact h.not_below hb
    · exact ne_next h.mem e

/-- Several statements taken over one after another: new nodes get their states, and they
themselves are left empty. -/
theorem takeOvers_of_free {os : List NodeId} (hs : s.Sound) (ha : s.Acyclic) (hd : os.Nodup)
    (hf : ∀ o ∈ os, Free s r o) :
    ∃ ns t, (os.map Argument.statement).mapM (takeOver r) s = .ok ns t ∧
      ns.Nodup ∧ (∀ n ∈ ns, n ∉ s) ∧ (∀ m, m ∈ t ↔ m ∈ s ∨ m ∈ ns) ∧
      Forall₂ (fun o n => t.read n = s.read o) os ns ∧ (∀ o ∈ os, t.read o = {}) ∧
      ∀ m, m ∉ os → m ∉ ns → t.read m = s.read m := by
  induction os generalizing s with
  | nil => exact ⟨[],s,rfl,List.nodup_nil,by simp,by simp,.nil,by simp,fun _ _ _ => rfl⟩
  | cons o os ih =>
    rw [List.nodup_cons] at hd
    obtain ⟨ho,hf⟩ := List.forall_mem_cons.mp hf
    have he : Edits True s (s.adopt o) := hs.edits_adopt ho.mem
    have hne : ∀ x ∈ os, x ≠ o := by
      rintro x hx rfl
      exact hd.1 hx
    obtain ⟨ns,t,ht,hns,hfresh,hmem,hmoved,hempty,hrest⟩ := ih (he.sound hs) (he.acyclic ha) hd.2
      fun x hx => (hf x hx).adopt hs ho.mem (hne x hx)
    have hnext : s.next ∈ s.adopt o := (mem_adopt ho.mem).mpr (Or.inr rfl)
    have hnew : s.next ∉ os := fun h => s.next_not_mem (hf _ h).mem
    have hnn : s.next ∉ ns := fun h => hfresh _ h hnext
    have hon : o ∉ ns := fun h => hfresh _ h (he.mem ho.mem)
    refine ⟨s.next :: ns,t,?_,List.nodup_cons.mpr ⟨hnn,hns⟩,?_,fun m => ?_,.cons ?_ ?_,?_,?_⟩
    · rw [List.map_cons, List.mapM_cons,
        bind_of_ok (takeOver_of_insertable (ho.insertable hs ha) ho.mem), bind_of_ok ht]
      rfl
    · intro n hn
      rcases List.mem_cons.mp hn with rfl | hn
      · exact s.next_not_mem
      · exact fun h => hfresh n hn (he.mem h)
    · rw [hmem, mem_adopt ho.mem, List.mem_cons, or_assoc]
    · rw [hrest _ hnew hnn, read_adopt_next ho.mem]
    · refine (forall₂_with_mem hmoved).imp fun x n h => ?_
      rw [h.2, read_adopt_of_ne (hne x h.1) (hf x h.1).mem]
    · intro x hx
      rcases List.mem_cons.mp hx with rfl | hx
      · rw [hrest x hd.1 hon, read_adopt, if_pos rfl]
      · exact hempty x hx
    · intro m hmo hmn
      rw [List.mem_cons, not_or] at hmo hmn
      rw [hrest m hmo.2 hmn.2, read_adopt, if_neg hmo.1, if_neg hmn.1]

/-- A guarded statement put together from free statements: its bodies are new nodes with their
states, and they themselves are left empty. -/
theorem assemble_of_free {c : Condition} {os : List NodeId} (hs : s.Sound) (ha : s.Acyclic)
    (hrm : r ∈ s) (hready : s.ready g.kind r = .ok ()) (hd : os.Nodup)
    (hf : ∀ o ∈ os, Free s r o) :
    ∃ ns t, assemble g r (.condition c) (os.map .statement) s = .ok () t ∧
      ns.Nodup ∧ (∀ n ∈ ns, n ∉ s) ∧ (∀ m, m ∈ t ↔ m ∈ s ∨ m ∈ ns) ∧
      t.read r = ⟨.guarded g c,ns⟩ ∧ Forall₂ (fun o n => t.read n = s.read o) os ns ∧
      (∀ o ∈ os, t.read o = {}) ∧ ∀ m, m ≠ r → m ∉ os → m ∉ ns → t.read m = s.read m := by
  obtain ⟨ns,t,ht,hns,hfresh,hmem,hmoved,hempty,hrest⟩ := takeOvers_of_free hs ha hd hf
  have hparts : (os.map Argument.statement).mapM (s.insertable r) = .ok os := by
    rw [mapM_eq_ok_iff, List.forall₂_map_left_iff, List.forall₂_same]
    exact fun o ho => (hf o ho).insertable hs ha
  have hrt : r ∈ t := (hmem r).mpr (Or.inl hrm)
  have hrn : ∀ n ∈ ns, n ≠ r := by
    rintro n hn rfl
    exact hfresh n hn hrm
  refine ⟨ns,t.write r ⟨.guarded g c,ns⟩,?_,hns,hfresh,fun m => ?_,read_write_self ..,?_,?_,?_⟩
  · unfold assemble
    rw [bind_of_ok (ask_of_ok hready), bind_of_ok (ask_of_ok (a := c) rfl),
      bind_of_ok (ask_of_ok hparts), bind_of_ok (requireDistinct_of_nodup hd), bind_of_ok ht]
    rfl
  · rw [mem_iff, size_write_of_mem hrt, ← mem_iff, hmem]
  · refine (forall₂_with_mem hmoved.flip).flip.imp fun o n h => ?_
    rw [read_write_of_ne (hrn n h.1), h.2]
  · intro o ho
    rw [read_write_of_ne (hf o ho).ne, hempty o ho]
  · intro m hm hmo hmn
    rw [read_write_of_ne hm, hrest m hmo hmn]

/-- All that adding can do: it changes nothing, or puts in what is free to go there, or moves that
in vain. -/
theorem add_cases (hm : r ∈ s) (pos : Argument) (hk : a.Known s) :
    (∃ e, add r pos a s = .error e s) ∨
      ∃ cs n, s.read r = ⟨.block,cs⟩ ∧ a = .statement n ∧ Free s r n ∧
        ((∃ i, pos.position s.text cs.length true = .ok (some i) ∧
          add r pos a s = .ok () ((s.adopt n).write r ⟨.block,cs.insertIdx i s.next⟩)) ∨
        ∃ x, pos = .real x ∧ x.within cs.length true ∧
          add r pos a s = .error (.notAnIndex "float") (s.adopt n)) := by
  cases hv : s.expect .block r with
  | error e =>
    refine Or.inl ⟨e,?_⟩
    unfold add
    rw [bind_of_error (ask_of_error hv)]
  | ok v =>
    cases hpos : pos.position s.text v.children.length true with
    | error e =>
      refine Or.inl ⟨e,?_⟩
      unfold add
      rw [bind_of_ok (ask_of_ok hv), bind_of_error (ask_of_error hpos)]
    | ok i? =>
      have hr := read_of_expect_block hv
      rcases takeOver_cases r hk with ⟨n,hi,hn,_⟩ | ⟨e,_,htake⟩
      · obtain ⟨rfl,hfree⟩ := free_of_insertable hk hi
        refine Or.inr ⟨v.children,n,hr,rfl,hfree,?_⟩
        cases i? with
        | some i => exact Or.inl ⟨i,hpos,add_of_block hr hm hpos hi hn⟩
        | none =>
          obtain ⟨x,rfl,hx⟩ := Argument.eq_real_of_position hpos
          exact Or.inr ⟨x,rfl,hx,add_of_real hr hx hi hn⟩
      · refine Or.inl ⟨e,?_⟩
        unfold add
        rw [bind_of_ok (ask_of_ok hv), bind_of_ok (ask_of_ok hpos), bind_of_error htake]

theorem assembleCall_of_ready (h : s.ready .call r = .ok ()) (name : String) :
    assembleCall r (.text name) s = .ok () (s.write r ⟨.call name,[]⟩) := by
  unfold assembleCall
  rw [bind_of_ok (ask_of_ok h)]
  rfl

end Statement
end RobotCode
