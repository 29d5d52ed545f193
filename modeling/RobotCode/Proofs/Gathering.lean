import RobotCode.Proofs.Halt
import RobotCode.Proofs.Insertion

/-! # Gathering statements in a block

A block is built by moving the arguments into it, one after another. Each argument leaves an empty
block where it was, also inside another one of them, whichever of the two is moved first.
-/
namespace RobotCode
open Relation Store
variable {s t u : Store} {c m n p r : NodeId} {i : ℕ} {cs done gone ns : List NodeId}

namespace Store

/-- The store with empty blocks for some nodes. -/
def without (s : Store) (gone : List NodeId) : Store := gone.foldl (fun s n => s.write n {}) s

theorem read_without (s : Store) (gone : List NodeId) (m : NodeId) :
    (s.without gone).read m = if m ∈ gone then {} else s.read m := by
  induction gone generalizing s with
  | nil => rfl
  | cons n gone ih =>
    rw [without, List.foldl_cons, ← without, ih, read_write]
    by_cases hm : m = n <;> simp [hm]

theorem child_of_without (h : (s.without gone).Child p c) : s.Child p c := by
  rw [Child, read_without] at h
  split at h
  next => cases h
  next => exact h

theorem below_of_without (h : (s.without gone).Below n m) : s.Below n m :=
  TransGen.mono (fun _ _ => child_of_without) n m h

theorem Acyclic.without (ha : s.Acyclic) : (s.without gone).Acyclic := fun n hn =>
  ha n (below_of_without hn)

theorem tree?_of_moved (ha : s.Acyclic) (hr : t.read c = s.read n)
    (hk : ∀ m, s.Below n m → t.read m = s.read m) : t.tree? c = s.tree? n := by
  obtain ⟨w,hw⟩ := exists_holds ha n
  rw [hw.tree?, (hw.of_moved hr hk).tree?]

end Store

namespace Statement

/-- The arguments `done` have been moved into the new block `r`, which has the children `cs` by now.
An argument that has not been there before has given its child what it was. -/
structure Gathered (s : Store) (r : NodeId) (done cs : List NodeId) (t : Store) : Prop where
  edits : Edits True s t
  mem : r ∈ t
  isRoot : t.IsRoot r
  read : t.read r = ⟨.block,cs⟩
  not_mem : r ∉ s
  old : ∀ m ∈ s, t.read m = if m ∈ done then {} else s.read m
  fresh : ∀ c ∈ cs, c ∈ t ∧ c ∉ s ∧ c ≠ r
  length_eq : cs.length = done.length
  taken : ∀ i n c, done[i]? = some n → cs[i]? = some c → n ∉ done.take i → t.read c = s.read n

namespace Gathered

theorem start (hs : s.Sound) : Gathered s s.next [] [] (s.push {}) where
  edits := .single (.alloc s)
  mem := s.next_mem_push
  isRoot := by
    rw [IsRoot, child_push_empty_eq]
    exact hs.isRoot_next
  read := read_push_next ..
  not_mem := s.next_not_mem
  old m hm := read_push_of_mem _ hm
  fresh := by simp
  length_eq := rfl
  taken := by simp

theorem assembled (h : Gathered s r done cs t) (hn : n ∈ s)
    (hl : (s.read n).label.awaited? = none) : (t.read n).label.awaited? = none := by
  rw [h.old n hn]
  split
  next => rfl
  next => exact hl

theorem free (h : Gathered s r done cs t) (hn : n ∈ s) (hl : (s.read n).label.awaited? = none) :
    Free t r n where
  mem := h.edits.mem hn
  ne e := h.not_mem (e ▸ hn)
  assembled := h.assembled hn hl
  not_below := h.isRoot.not_below

theorem read_adopt_write (h : Gathered s r done cs t) (hm : m ∈ s) (v : Node) :
    ((t.adopt n).write r v).read m = if m = n then {} else t.read m := by
  have hmr : m ≠ r := fun e => h.not_mem (e ▸ hm)
  rw [read_write_of_ne hmr, read_adopt, if_neg (ne_next (h.edits.mem hm))]

theorem step (h : Gathered s r done cs t) (hn : n ∈ s)
    (he : Edits True t ((t.adopt n).write r ⟨.block,cs ++ [t.next]⟩)) :
    Gathered s r (done ++ [n]) (cs ++ [t.next]) ((t.adopt n).write r ⟨.block,cs ++ [t.next]⟩) := by
  have hnt : n ∈ t := h.edits.mem hn
  have hnext : t.next ≠ r := (ne_next h.mem).symm
  have hread : ∀ c ∈ cs, ((t.adopt n).write r ⟨.block,cs ++ [t.next]⟩).read c = t.read c := by
    intro c hc
    obtain ⟨hct,hcs,hcr⟩ := h.fresh c hc
    have hcn : c ≠ n := fun e => hcs (e ▸ hn)
    rw [read_write_of_ne hcr, read_adopt_of_ne hcn hct]
  refine ⟨h.edits.trans he,he.mem h.mem,fun p hp => ?_,read_write_self ..,h.not_mem,fun m hm => ?_,
    fun c hc => ?_,?_,fun i m c hi hc hnew => ?_⟩
  · rw [Child, read_write] at hp
    split at hp
    next =>
      rcases List.mem_append.mp hp with hp | hp
      · exact (h.fresh r hp).2.2 rfl
      · exact hnext (List.mem_singleton.mp hp).symm
    next => exact Sound.isRoot_adopt h.isRoot p hp
  · rw [h.read_adopt_write hm, h.old m hm]
    by_cases hmn : m = n <;> simp [hmn]
  · rcases List.mem_append.mp hc with hc | hc
    · obtain ⟨hct,hcs,hcr⟩ := h.fresh c hc
      exact ⟨he.mem hct,hcs,hcr⟩
    · obtain rfl := List.mem_singleton.mp hc
      exact ⟨mem_write ((mem_adopt hnt).mpr (Or.inr rfl)),
        fun hs => t.next_not_mem (h.edits.mem hs),hnext⟩
  · rw [List.length_append, List.length_append, h.length_eq]
    rfl
  · rcases Nat.lt_or_ge i done.length with hlt | hge
    · rw [List.getElem?_append_left hlt] at hi
      rw [List.getElem?_append_left (h.length_eq ▸ hlt)] at hc
      rw [List.take_append_of_le_length (Nat.le_of_lt hlt)] at hnew
      rw [hread c (List.mem_of_getElem? hc), h.taken i m c hi hc hnew]
    · obtain rfl : i = done.length := by
        have := (List.getElem?_eq_some_iff.mp hi).1
        simp only [List.length_append, List.length_singleton] at this
        omega
      rw [List.getElem?_concat_length, Option.some.injEq] at hi
      rw [← h.length_eq, List.getElem?_concat_length, Option.some.injEq] at hc
      rw [List.take_left] at hnew
      rw [← hi] at hnew ⊢
      rw [← hc, read_write_of_ne hnext, read_adopt_next hnt, h.old n hn, if_neg hnew]

/-- What can be put below the new block is moved to its end. -/
theorem append_of_insertable (h : Gathered s r done cs t) (hs : s.Sound) (hn : n ∈ s)
    (hi : t.insertable r (.statement n) = .ok n) :
    ∃ cs u, Statement.append r (.statement n) t = .ok () u ∧ Gathered s r (done ++ [n]) cs u := by
  have ht := h.edits.sound hs
  have hnt := h.edits.mem hn
  have hadd : add r (.int cs.length) (.statement n) t =
      .ok () ((t.adopt n).write r ⟨.block,cs.insertIdx cs.length t.next⟩) :=
    add_of_block h.read h.mem (Argument.position_int (Or.inr ⟨rfl,rfl⟩)) hi hnt
  have happ : Statement.append r (.statement n) t =
      .ok () ((t.adopt n).write r ⟨.block,cs ++ [t.next]⟩) := by
    rw [List.insertIdx_length_self] at hadd
    unfold Statement.append
    rw [bind_of_ok (length_of_block h.read), hadd]
  have hleads : Leads True id (Statement.append r (.statement n)) t fun _ _ => True :=
    leads_append ht h.mem (Argument.known_statement hnt)
  exact ⟨_,_,happ,h.step hn (hleads.edits_of_ok happ)⟩

theorem insertable (h : Gathered s r done cs t) (hs : s.Sound) (ha : s.Acyclic) (hn : n ∈ s)
    (hl : (s.read n).label.awaited? = none) : t.insertable r (.statement n) = .ok n :=
  (h.free hn hl).insertable (h.edits.sound hs) (h.edits.acyclic ha)

/-- An assembled argument can always be moved: the new block is not inside anything. -/
theorem append (h : Gathered s r done cs t) (hs : s.Sound) (ha : s.Acyclic) (hn : n ∈ s)
    (hl : (s.read n).label.awaited? = none) :
    ∃ cs u, Statement.append r (.statement n) t = .ok () u ∧ Gathered s r (done ++ [n]) cs u :=
  h.append_of_insertable hs hn (h.insertable hs ha hn hl)

/-- What has been moved before is assembled, so that the argument must have been so at the outset.
-/
theorem assembled_of_append (h : Gathered s r done cs t) (hn : n ∈ s)
    (hd : ∀ d ∈ done, (s.read d).label.awaited? = none)
    (happ : Statement.append r (.statement n) t = .ok () u) :
    (s.read n).label.awaited? = none := by
  unfold Statement.append at happ
  rw [bind_of_ok (length_of_block h.read)] at happ
  obtain ⟨_,_,_,_,_,e,hfree,_⟩ := of_add h.mem (Argument.known_statement (h.edits.mem hn)) happ
  cases e
  by_cases hmem : n ∈ done
  · exact hd n hmem
  · have hread := h.old n hn
    rw [if_neg hmem] at hread
    exact hread ▸ hfree.assembled

theorem run_of_insertable (h : Gathered s r done cs t) (hs : s.Sound) (hn : ∀ n ∈ ns, n ∈ s)
    (hi : ∀ n ∈ ns, ∀ {done cs t}, Gathered s r done cs t → t.insertable r (.statement n) = .ok n) :
    ∃ cs u, (ns.map Argument.statement).forM (Statement.append r) t = .ok () u ∧
      Gathered s r (done ++ ns) cs u := by
  induction ns generalizing done cs t with
  | nil => exact ⟨cs,t,rfl,by simpa using h⟩
  | cons n ns ih =>
    obtain ⟨hn,hns⟩ := List.forall_mem_cons.mp hn
    obtain ⟨_,u,hu,hstep⟩ := h.append_of_insertable hs hn (hi n (List.mem_cons_self ..) h)
    obtain ⟨cs,v,hv,hrun⟩ := ih hstep hns fun m hm => hi m (List.mem_cons_of_mem n hm)
    refine ⟨cs,v,?_,by simpa using hrun⟩
    rw [List.map_cons, List.forM_eq_forM, List.forM_cons, bind_of_ok hu]
    exact hv

theorem run (h : Gathered s r done cs t) (hs : s.Sound) (ha : s.Acyclic) (hn : ∀ n ∈ ns, n ∈ s)
    (hl : ∀ n ∈ ns, (s.read n).label.awaited? = none) :
    ∃ cs u, (ns.map Argument.statement).forM (Statement.append r) t = .ok () u ∧
      Gathered s r (done ++ ns) cs u :=
  h.run_of_insertable hs hn fun n hm _ _ _ h => h.insertable hs ha (hn n hm) (hl n hm)

theorem assembled_of_run (h : Gathered s r done cs t) (hs : s.Sound) (ha : s.Acyclic)
    (hn : ∀ n ∈ ns, n ∈ s) (hd : ∀ d ∈ done, (s.read d).label.awaited? = none)
    (hrun : (ns.map Argument.statement).forM (Statement.append r) t = .ok () u) :
    ∀ n ∈ ns, (s.read n).label.awaited? = none := by
  induction ns generalizing done cs t with
  | nil => simp
  | cons n ns ih =>
    obtain ⟨hn,hns⟩ := List.forall_mem_cons.mp hn
    rw [List.map_cons, List.forM_eq_forM, List.forM_cons] at hrun
    obtain ⟨_,v,happ,hrest⟩ := exists_of_bind_ok hrun
    have hl := h.assembled_of_append hn hd happ
    obtain ⟨_,u',hu,hstep⟩ := h.append hs ha hn hl
    rw [happ] at hu
    cases hu
    have hdone : ∀ d ∈ done ++ [n], (s.read d).label.awaited? = none :=
      List.forall_mem_append.mpr ⟨hd,List.forall_mem_singleton.mpr hl⟩
    exact List.forall_mem_cons.mpr ⟨hl,ih hstep hns hdone hrest⟩

/-- A child has the value of its argument, with empty blocks in place of the other arguments. -/
theorem tree?_eq (h : Gathered s r ns cs t) (hs : s.Sound) (ha : s.Acyclic) (hn : n ∈ s)
    (hi : ns[i]? = some n) (hc : cs[i]? = some c) (hnew : n ∉ ns.take i) :
    t.tree? c = (s.without (ns.filter (· ≠ n))).tree? n := by
  refine tree?_of_moved ha.without ?_ fun m hm => ?_
  · rw [h.taken i n c hi hc hnew, read_without, if_neg (by simp)]
  · have hb := below_of_without hm
    have hmn : m ≠ n := by
      rintro rfl
      exact ha m hb
    rw [read_without, h.old m (hs.mem_of_below hb)]
    simp [hmn]

/-- If no other argument lies inside, it has the whole value. -/
theorem tree?_eq_of_not_below (h : Gathered s r ns cs t) (hs : s.Sound) (ha : s.Acyclic)
    (hi : ns[i]? = some n) (hc : cs[i]? = some c) (hnew : n ∉ ns.take i)
    (hnone : ∀ x ∈ ns, ¬ s.Below n x) : t.tree? c = s.tree? n := by
  refine tree?_of_moved ha (h.taken i n c hi hc hnew) fun m hb => ?_
  rw [h.old m (hs.mem_of_below hb), if_neg fun hm => hnone m hm hb]

end Gathered

theorem block_eq (s : Store) (args : List Argument) : block args s =
    (args.forM (Statement.append s.next) >>= fun _ => pure s.next) (s.push {}) := rfl

theorem exists_gathered (hs : s.Sound) (ha : s.Acyclic) (hn : ∀ n ∈ ns, n ∈ s)
    (hl : ∀ n ∈ ns, (s.read n).label.awaited? = none) :
    ∃ r cs t, block (ns.map .statement) s = .ok r t ∧ Gathered s r ns cs t := by
  obtain ⟨cs,t,ht,hrun⟩ := (Gathered.start hs).run hs ha hn hl
  refine ⟨s.next,cs,t,?_,hrun⟩
  rw [block_eq, bind_of_ok ht]
  rfl

theorem assembled_of_block (hs : s.Sound) (ha : s.Acyclic) (hn : ∀ n ∈ ns, n ∈ s)
    (h : block (ns.map .statement) s = .ok r t) : ∀ n ∈ ns, (s.read n).label.awaited? = none := by
  rw [block_eq] at h
  obtain ⟨_,u,hrun,_⟩ := exists_of_bind_ok h
  exact (Gathered.start hs).assembled_of_run hs ha hn (by simp) hrun

end Statement

open Statement

/-- In a forest, statements can be gathered in a block exactly if all of them are assembled. The
block has one child for each of them, in their order. A statement that is not listed before gives
its child the value that it had, except that there is an empty block in place of each other
statement of the list that is strictly inside it. -/
theorem block_gathers {allowed : Store → Command → Prop} (h : Reachable allowed s) (hf : s.Forest)
    (hn : ∀ n ∈ ns, n ∈ s) :
    ((∃ r t, block (ns.map .statement) s = .ok r t) ↔
      ∀ n ∈ ns, (s.read n).label.awaited? = none) ∧
    ∀ r t, block (ns.map .statement) s = .ok r t →
      ∃ cs, t.read r = ⟨.block,cs⟩ ∧ cs.length = ns.length ∧ cs.Nodup ∧
        ∀ i n c, ns[i]? = some n → cs[i]? = some c → n ∉ ns.take i →
          t.tree? c = (s.without (ns.filter (· ≠ n))).tree? n ∧
          ((∀ x ∈ ns, ¬ s.Below n x) → t.tree? c = s.tree? n) := by
  have hs := h.sound
  have ha := hf.acyclic
  refine ⟨⟨fun ⟨r,t,ht⟩ => assembled_of_block hs ha hn ht,fun hl => ?_⟩,fun r t ht => ?_⟩
  · obtain ⟨r,_,t,ht,_⟩ := exists_gathered hs ha hn hl
    exact ⟨r,t,ht⟩
  · obtain ⟨r',cs,t',ht',hgathered⟩ := exists_gathered hs ha hn (assembled_of_block hs ha hn ht)
    rw [ht] at ht'
    cases ht'
    refine ⟨cs,hgathered.read,hgathered.length_eq,
      (hgathered.edits.sound hs).nodup_of_read hgathered.read,fun i n c hi hc hnew => ?_⟩
    exact ⟨hgathered.tree?_eq hs ha (hn n (List.mem_of_getElem? hi)) hi hc hnew,
      hgathered.tree?_eq_of_not_below hs ha hi hc hnew⟩

/-- The choice goes first, then the block that it was in, and then the call that was in the choice.
-/
theorem block_gathers_wrapped : ∃ r t c₁ c₂ c₃,
    block [.statement ⟨6⟩,.statement ⟨5⟩,.statement ⟨2⟩] wrapped = .ok r t ∧
    t.read r = ⟨.block,[c₁,c₂,c₃]⟩ ∧
    t.tree? c₁ = some (.guarded .ifThen .always [.block [.block []]]) ∧
    t.tree? c₂ = some (.block [.block []]) ∧ t.tree? c₃ = some (.call "move") := by
  have hn : ∀ n ∈ [(⟨6⟩ : NodeId),⟨5⟩,⟨2⟩], n ∈ wrapped := by decide
  obtain ⟨hiff,hall⟩ := block_gathers reachable_wrapped forest_wrapped hn
  obtain ⟨r,t,ht⟩ := hiff.mpr (by decide)
  obtain ⟨cs,hr,hlen,_,hvalue⟩ := hall r t ht
  obtain ⟨c₁,c₂,c₃,rfl⟩ := List.length_eq_three.mp hlen
  exact ⟨r,t,c₁,c₂,c₃,ht,hr,(hvalue 0 ⟨6⟩ c₁ rfl rfl (by decide)).1,
    (hvalue 1 ⟨5⟩ c₂ rfl rfl (by decide)).1,(hvalue 2 ⟨2⟩ c₃ rfl rfl (by decide)).1⟩

/-- A choice that goes into a block after the block that held it is missing there, and a statement
that is listed twice is an empty block the second time. -/
theorem block_loses_values : Reachable (fun s c => c.Tame s) wrapped ∧ wrapped.Forest ∧
    (∃ r t c₁ c₂, block [.statement ⟨5⟩,.statement ⟨6⟩] wrapped = .ok r t ∧
      t.read r = ⟨.block,[c₁,c₂]⟩ ∧ t.tree? c₁ = some (.block [.block []]) ∧
      t.tree? c₁ ≠ wrapped.tree? ⟨5⟩) ∧
    ∃ r t c₁ c₂, block [.statement ⟨2⟩,.statement ⟨2⟩] wrapped = .ok r t ∧
      t.read r = ⟨.block,[c₁,c₂]⟩ ∧ t.tree? c₂ = some (.block []) ∧
      t.tree? c₂ ≠ wrapped.tree? ⟨2⟩ :=
  ⟨reachable_wrapped,forest_wrapped,⟨_,_,_,_,rfl,rfl,rfl,by decide⟩,_,_,_,_,rfl,rfl,rfl,by decide⟩

end RobotCode
