import RobotCode.Proofs.Recount
import RobotCode.Proofs.Simulation.Checks

/-! # Operations on roots are operations on values

A run of operations on roots, no two of them the same in one step, does to the roots what it does to
their trees. All checks of such a step come before its first change, so one that fails changes
nothing.
-/
namespace RobotCode
open Store StoreM
open List (Forall₂)
variable {s t : Store} {o : Orchard} {a pos test : Argument} {n r : NodeId} {g : Guarded}

/-- A step has led from the store to one that mirrors the orchard after it. -/
def Stepped (s : Store) (o : Orchard) (e : Effect) (a : Answer) (t : Store) : Prop :=
  ∃ names, NewRoots s t names ∧ names.length = e.made.length ∧ e.reply.Matches t names a ∧
    Mirrors t (o.after e names)

theorem newRoots_nil (hk : ∀ n ∈ s, s.IsRoot n → t.IsRoot n) : NewRoots s t [] :=
  ⟨hk,List.nodup_nil,by simp,by simp⟩

theorem newRoots_singleton (hk : ∀ n ∈ s, s.IsRoot n → t.IsRoot n) (h : ¬ (n ∈ s ∧ s.IsRoot n))
    (hn : n ∈ t) (hr : t.IsRoot n) : NewRoots s t [n] where
  kept := hk
  nodup := List.nodup_singleton n
  new _ hm := List.mem_singleton.mp hm ▸ h
  roots _ hm := List.mem_singleton.mp hm ▸ ⟨hn,hr⟩

namespace Mirrors

theorem stepped_view {x : Reply} {b : Answer} (h : Mirrors s o) (hx : x.Matches s [] b) :
    Stepped s o { reply := x } b s :=
  ⟨[],newRoots_nil fun _ _ hr => hr,rfl,hx,h⟩

theorem follows_field {β : Type} {f : Tree → Reply} {g : Cell → β} {b : β → Answer}
    (h : Mirrors s o) (hr : s.IsRoot r)
    (hfg : (s.read r).label.awaited? = none → (f (o r)).Matches s [] (b (g (s.cell r)))) :
    Follows s (o.view r f) (Statement.field g r) fun e x t => Stepped s o e (b x) t := by
  unfold Orchard.view
  refine follows_bind (h.both_assembled hr) (fun f hf => ?_) fun t v _ ⟨ht,_,hl⟩ => ?_
  · exact Statement.field_of_error hf
  · rw [ht]
    rw [← h.label hr] at hl
    exact follows_ok (Statement.field_of_none hl) (h.stepped_view (hfg hl))

theorem follows_length (h : Mirrors s o) (hr : s.IsRoot r) :
    Follows s (o.step (.length r)) (Statement.length r)
      fun e x t => Stepped s o e (.number x) t := by
  refine follows_bind (h.both_expect hr .block) (fun f hf => ?_) fun t v hv ⟨ht,hvr,_⟩ => ?_
  · unfold Statement.length
    rw [bind_of_error (ask_of_error hf)]
  · rw [ht]
    refine follows_ok ?_ (h.stepped_view (x := .plain _) rfl)
    unfold Statement.length
    rw [bind_of_ok (ask_of_ok hv), hvr, ← (h.parts hr).length_eq]
    rfl

theorem follows_size (h : Mirrors s o) (hr : s.IsRoot r) :
    Follows s (o.step (.size r)) (Statement.size r)
      fun e x t => Stepped s o e (.number x) t := by
  have hsize := h.sound.sizeOf_eq (h.holds r hr)
  refine follows_bind (h.both_assembled hr) (fun f hf => ?_) fun t v hv ⟨ht,hvr,ha⟩ => ?_
  · apply ask_of_error
    unfold Store.sizeOf sizeWithin
    rw [hf]
    rfl
  · rw [ht]
    refine follows_ok (ask_of_ok ?_) (h.stepped_view (x := .plain _) rfl)
    rw [hsize, Tree.inFull, h.whole hr ha]

theorem both_getElem? {α β : Type} {R : α → β → Prop} {xs : List α} {ys : List β}
    (h : Forall₂ R xs ys) (k : ℕ) : Both (fun y x => R x y)
      (ys[k]?.elim (.error .noSuchChild) .ok) (xs[k]?.elim (.error .noSuchChild) .ok) := by
  cases hx : xs[k]? with
  | none =>
    rw [List.getElem?_eq_none_iff, h.length_eq, ← List.getElem?_eq_none_iff] at hx
    rw [hx]
    exact .error nofun
  | some x =>
    obtain ⟨y,hy,hxy⟩ := exists_getElem?_of_forall₂ h hx
    rw [hy]
    exact .ok hxy

theorem both_atIndex {α β : Type} {R : α → β → Prop} {xs : List α} {ys : List β}
    (h : Forall₂ R xs ys) (i : Int) : Both (fun y x => R x y) (atIndex ys i) (atIndex xs i) := by
  unfold atIndex
  rw [h.length_eq]
  dsimp only
  generalize (if i < 0 then i + (ys.length : Int) else i) = k
  split
  next => exact .error nofun
  split
  next => exact .error nofun
  next => exact both_getElem? h k.toNat

theorem follows_child (h : Mirrors s o) (hr : s.IsRoot r) (i : Int) :
    Follows s (o.step (.child r i)) (Statement.child r i)
      fun e x t => Stepped s o e (.made (.statement x)) t := by
  have hb : Both (fun e c => ∃ u, e = { reply := .part u } ∧ s.Holds c u)
      (o.step (.child r i)) (s.childAt r i) := by
    refine (h.both_assembled hr).bind fun t v ⟨ht,hv,_⟩ => ?_
    rw [ht, hv]
    exact (both_atIndex (h.parts hr) i).map_left fun u c hcu => ⟨u,rfl,hcu⟩
  refine follows_ask hb ?_
  rintro e c ⟨u,rfl,hcu⟩
  exact h.stepped_view ⟨c,rfl,hcu.tree?⟩

theorem both_equal (h : Mirrors s o) {m : NodeId} (hm : s.IsRoot m) (hn : s.IsRoot n) :
    Both (fun x y => y = x) (o.equal m n) (s.equal m n) := by
  refine (h.both_fields hm).bind fun t u ⟨ht,hu,hx⟩ => ?_
  refine (h.both_fields hn).bind fun t' v ⟨ht',hv,hy⟩ => ?_
  have heq := h.sound.equal_eq (h.holds m hm) (h.holds n hn) (h.whole hm hx)
    (h.whole hn hy)
  unfold equal equalWithin at heq
  rw [fields_of_none (by rw [h.label hm, hx]), fields_of_none (by rw [h.label hn, hy])] at heq
  rw [ht, ht', hu, hv]
  dsimp only [bind, Except.bind] at heq
  rw [heq]
  exact .ok rfl

theorem both_equalHeld (h : Mirrors s o) {m : NodeId} (hm : s.IsRoot m) (hn : s.IsRoot n) :
    Both (fun x y => y = x) (o.equalHeld m n) (s.equalHeld m n) := by
  unfold Orchard.equalHeld Store.equalHeld
  split
  next => exact .ok rfl
  next => exact h.both_equal hm hn

theorem follows_equals (h : Mirrors s o) (b : Argument) (ha : ∀ n ∈ a.nodes, s.IsRoot n)
    (hb : ∀ n ∈ b.nodes, s.IsRoot n) :
    Follows s (o.equals a b) (Statement.equals a b) fun x y t => y = x ∧ t = s := by
  unfold Statement.equals
  split
  next m n =>
    have hequal := h.both_equal (ha m (List.mem_singleton_self m)) (hb n (List.mem_singleton_self n))
    exact follows_ask hequal fun _ _ hxy => ⟨hxy,rfl⟩
  next hno =>
    unfold Orchard.equals
    split
    next m n => exact (hno m n rfl rfl).elim
    next =>
      have hequal := a.both_equalData b fun m hm n hn => h.both_equalHeld (ha m hm) (hb n hn)
      exact follows_ask hequal fun _ _ hxy => ⟨hxy,rfl⟩

theorem follows_equalStatements (h : Mirrors s o) (b : Argument) (ha : ∀ n ∈ a.node?, s.IsRoot n)
    (hb : ∀ n ∈ b.node?, s.IsRoot n) :
    Follows s (o.equalStatements a b) (Statement.equalStatements a b)
      fun x y t => y = x ∧ t = s := by
  cases a with
  | statement m =>
    cases b with
    | statement n =>
      exact follows_ask (h.both_equal (ha m rfl) (hb n rfl)) fun _ _ hxy => ⟨hxy,rfl⟩
    | _ =>
      refine follows_ask (S := fun _ _ => False) ?_ fun _ _ hf => hf.elim
      exact (h.both_assembled (ha m rfl)).bind fun _ _ _ => .error nofun
  | _ => exact follows_error rfl nofun

theorem follows_truth {x : Except Fault Bool} {y : StoreM Bool} (h : Mirrors s o)
    (f : Bool → Bool) (hxy : Follows s x y fun a b t => b = a ∧ t = s) :
    Follows s (x >>= fun a => pure { reply := .plain (.truth (f a)) })
      (y >>= fun b => pure (Answer.truth (f b))) (Stepped s o) := by
  have hmap : Follows s x (y >>= fun b => pure (Answer.truth (f b))) fun a b t =>
      b = .truth (f a) ∧ t = s := hxy.map fun a b t ⟨hb,ht⟩ => ⟨by rw [hb],ht⟩
  apply hmap.map_left
  rintro a b t ⟨rfl,rfl⟩
  exact h.stepped_view (x := .plain _) rfl

theorem count_statement (o : Orchard) (n : NodeId) : o.count (.statement n) =
    (o n).assembled >>= fun t => pure { reply := .plain (.number t.primitives.length) } := rfl

theorem follows_count (h : Mirrors s o) (ha : ∀ n ∈ a.node?, n ∈ s ∧ s.IsRoot n) :
    Follows s (o.count a) (Tally.count a) fun e x t => Stepped s o e (.number x) t := by
  cases a with
  | statement n =>
    obtain ⟨hn,hr⟩ := ha n rfl
    rw [count_statement]
    refine follows_bind (h.both_assembled hr) (fun f hf => ?_) fun t v hv ⟨ht,_,hl⟩ => ?_
    · exact Tally.count_of_not_assembled hf
    · rw [ht]
      obtain ⟨t,hcount,hre⟩ :=
        Tally.count_of_holds h.sound h.acyclic hn (h.holds n hr) (h.whole hr hl)
      have hcounted := h.counted hr hl hre
      have hmirrors : Mirrors t o := by simpa using hcounted.mirrors
      exact follows_ok hcount ⟨[],newRoots_nil hcounted.kept,rfl,rfl,hmirrors⟩
  | _ => exact follows_error rfl nofun

theorem follows_countWalking (h : Mirrors s o) (ha : ∀ n ∈ a.node?, n ∈ s ∧ s.IsRoot n) :
    Follows s (o.count a) (Tally.countWalking a) fun e x t => Stepped s o e (.number x) t := by
  cases a with
  | statement n =>
    obtain ⟨hn,hr⟩ := ha n rfl
    rw [count_statement]
    refine follows_bind (h.both_assembled hr) (fun f hf => ?_) fun t v hv hends => ?_
    · apply ask_of_error
      dsimp only [Argument.toStatement, bind, Except.bind]
      unfold walk
      rw [hf]
      rfl
    · obtain ⟨ht,_,hl⟩ := hends
      rw [ht]
      exact follows_ok (Tally.countWalking_eq h.sound h.acyclic hn (h.holds n hr) (h.whole hr hl))
        (h.stepped_view (x := .plain _) rfl)
  | _ => exact follows_error rfl (by simp)

theorem follows_create (h : Mirrors s o) :
    Follows s (o.step .create) Statement.create
      fun e x t => Stepped s o e (.made (.statement x)) t := by
  have hroot : (s.push {}).IsRoot s.next := by
    rw [IsRoot, child_push_empty_eq]
    exact h.sound.isRoot_next
  have hnew := newRoots_singleton h.created.kept (fun hold => s.next_not_mem hold.1)
    s.next_mem_push hroot
  exact follows_ok rfl ⟨[s.next],hnew,rfl,⟨s.next,rfl,rfl⟩,h.created.mirrors⟩

theorem follows_copy (h : Mirrors s o) (hn : n ∈ s) (hr : s.IsRoot n) :
    Follows s (o.step (.copy n)) (Statement.copy n)
      fun e x t => Stepped s o e (.made (.statement x)) t := by
  refine follows_bind (h.both_assembled hr) (fun f hf => ?_) fun t v hv ⟨ht,_,hl⟩ => ?_
  · have hcopy : Statement.copy n s = Statement.copyWithin (s.size + 1) n s := rfl
    rw [hcopy]
    unfold Statement.copyWithin
    rw [bind_of_error (ask_of_error (fields_of_error hf))]
  · rw [ht]
    obtain ⟨k,t,hcopy,he,hc⟩ :=
      Statement.exists_copy h.sound hn (h.holds n hr) (h.whole hr hl)
    have hcopied := h.copied he hc hr hl
    have hnew := newRoots_singleton hcopied.kept (fun hold => hc.not_mem hold.1) hc.mem hc.isRoot
    exact follows_ok hcopy ⟨[k],hnew,rfl,⟨k,rfl,rfl⟩,hcopied.mirrors⟩

theorem block_of_expect (h : Mirrors s o) (hr : s.IsRoot r)
    (ha : (o r).label.awaited? = none) (hk : (o r).label.kind = .block) :
    s.read r = ⟨.block,(s.read r).children⟩ := by
  rw [← h.label hr] at ha hk
  rw [← Label.eq_block ha hk]

theorem follows_remove (h : Mirrors s o) (hm : r ∈ s) (hr : s.IsRoot r) :
    Follows s (o.remove r pos) (Statement.remove r pos)
      fun e x t => Stepped s o e (.made (.statement x)) t := by
  have hparts := h.parts hr
  refine follows_bind (h.both_expect hr .block) (fun f hf => ?_) fun t v hv ⟨ht,hvr,ha,hk⟩ => ?_
  · unfold Statement.remove
    rw [bind_of_error (ask_of_error hf)]
  rw [ht, ← hparts.length_eq]
  rw [hvr] at hv
  refine follows_bind (both_position s o pos _ false) (fun f hf => ?_) fun _ i? hj ⟨hij,_⟩ => ?_
  · unfold Statement.remove
    rw [bind_of_ok (ask_of_ok hv), bind_of_error (ask_of_error hf)]
  subst hij
  cases i? with
  | none =>
    refine follows_error ?_ nofun
    unfold Statement.remove
    rw [bind_of_ok (ask_of_ok hv), bind_of_ok (ask_of_ok hj)]
    rfl
  | some i =>
    have hread := h.block_of_expect hr ha hk
    dsimp only [Orchard.place, Option.elim, bind, Except.bind]
    cases hc : (s.read r).children[i]? with
    | none =>
      have hnone : (o r).parts[i]? = none := by
        rwa [List.getElem?_eq_none_iff, ← hparts.length_eq, ← List.getElem?_eq_none_iff]
      rw [hnone]
      refine follows_error ?_ nofun
      unfold Statement.remove
      rw [bind_of_ok (ask_of_ok hv), bind_of_ok (ask_of_ok hj)]
      simp only [Statement.place, pure_bind, hc]
      rfl
    | some c =>
      obtain ⟨w,hw,_⟩ := exists_getElem?_of_forall₂ hparts hc
      have hrun := Statement.remove_of_block hread hj hc
      have he : Edits True s _ := (Statement.leads_remove h.sound hm).edits_of_ok hrun
      obtain ⟨hroot,hremoved⟩ := h.removed hm hr he hread hc hw
      have hrc : s.Child r c := List.mem_of_getElem? hc
      have hnew := newRoots_singleton hremoved.kept (fun hold => hold.2 r hrc)
        (he.mem (h.sound.mem_of_child hrc)) hroot
      rw [hw]
      exact follows_ok hrun ⟨[c],hnew,rfl,⟨c,rfl,rfl⟩,hremoved.mirrors⟩

theorem follows_add (h : Mirrors s o) (hm : r ∈ s) (hr : s.IsRoot r)
    (hpos : ∀ x, pos ≠ .real x) (ha : ∀ n ∈ a.node?, n ∈ s ∧ s.IsRoot n ∧ n ≠ r) :
    Follows s (o.add r pos a) (Statement.add r pos a) fun e _ t => Stepped s o e .done t := by
  have hparts := h.parts hr
  refine follows_bind (h.both_expect hr .block) (fun f hf => ?_) fun t v hv ⟨ht,hvr,hl,hk⟩ => ?_
  · unfold Statement.add
    rw [bind_of_error (ask_of_error hf)]
  rw [ht, ← hparts.length_eq]
  rw [hvr] at hv
  refine follows_bind (both_position s o pos _ true) (fun f hf => ?_) fun _ i? hi ⟨hij,_⟩ => ?_
  · unfold Statement.add
    rw [bind_of_ok (ask_of_ok hv), bind_of_error (ask_of_error hf)]
  subst hij
  refine follows_bind (h.both_given hr ha) (fun f hf => ?_) fun _ n hn ⟨hnm,hstatement,hfree⟩ => ?_
  · unfold Statement.add
    rw [bind_of_ok (ask_of_ok hv), bind_of_ok (ask_of_ok hi), bind_of_error (takeOver_of_error hf)]
  subst hnm hstatement
  cases i? with
  | none =>
    obtain ⟨x,hx,_⟩ := Argument.eq_real_of_position hi
    exact absurd hx (hpos x)
  | some i =>
    have hread := h.block_of_expect hr hl hk
    have hrun := Statement.add_of_block hread hm hi hn hfree.mem
    have he : Edits True s _ :=
      (Statement.leads_add h.sound hm (Argument.known_statement hfree.mem)).edits_of_ok hrun
    have hroot := (ha n rfl).2.1
    have hadded := h.added hm hr hroot hfree hread (Argument.le_of_position hi) he
    exact follows_ok hrun ⟨[],newRoots_nil hadded.kept,rfl,rfl,hadded.mirrors⟩

/-- What a statement held becomes roots when all of it is left. -/
theorem newRoots_children (h : Mirrors s o) (he : Edits True s t)
    (hk : ∀ n ∈ s, s.IsRoot n → t.IsRoot n) (hc : ∀ c, s.Child r c → t.IsRoot c) :
    NewRoots s t (s.read r).children where
  kept := hk
  nodup := h.sound.nodup r
  new _ hn hold := hold.2 r hn
  roots n hn := ⟨he.mem (h.sound.mem_of_child hn),hc n hn⟩

theorem nodup_of_statements {ns : List NodeId}
    (h : ((ns.map Argument.statement).filterMap Argument.node?).Nodup) : ns.Nodup := by
  have hid : (ns.map Argument.statement).filterMap Argument.node? = ns := by
    rw [List.filterMap_map]
    exact List.filterMap_some
  rwa [hid] at h

theorem follows_disassemble {outputs : List Argument} (h : Mirrors s o) (hm : r ∈ s)
    (hr : s.IsRoot r) (ho : ∀ a ∈ outputs, ∀ n ∈ a.node?, n ∈ s ∧ s.IsRoot n)
    (hd : (outputs.filterMap Argument.node?).Nodup) (hlen : outputs.length = g.arity) :
    Follows s (o.disassemble g r outputs) (Statement.disassemble g r outputs)
      fun e c t => Stepped s o e (.condition c) t := by
  refine follows_bind (h.both_expect hr g.kind) (fun f hf => ?_) fun t v hv ⟨ht,hvr,hl,hk⟩ => ?_
  · unfold Statement.disassemble Statement.guardedParts
    rw [bind_of_error (bind_of_error (ask_of_error hf))]
  rw [ht]
  rw [hvr] at hv
  have hlabel := h.label hr
  obtain ⟨test,htest⟩ := Label.eq_guarded (l := (s.read r).label) (by rw [hlabel, hl])
    (by rw [hlabel, hk])
  have hread : s.read r = ⟨.guarded g test,(s.read r).children⟩ := by rw [← htest]
  have hparts : Statement.guardedParts g r s = .ok (test,(s.read r).children) s := by
    unfold Statement.guardedParts
    rw [bind_of_ok (ask_of_ok hv), htest]
    rfl
  refine follows_bind (both_mapM fun a ha => h.both_vacant fun n hn => (ho a ha n hn).2)
    (fun f hf => ?_) fun _ outs houts ⟨hout,hall,he⟩ => ?_
  · unfold Statement.disassemble
    rw [bind_of_ok hparts]
    dsimp only
    rw [bind_of_error (ask_of_error hf)]
  subst hout hall
  have hroots : ∀ p ∈ outs, p ∈ s ∧ s.IsRoot p := fun p hp =>
    ho _ (List.mem_map_of_mem hp) p rfl
  have harity : (s.read r).children.length = g.arity := h.sound.admits hread
  have hclear : Statement.OutputsClear s r (outs.map .statement) := by
    intro p hp b _
    obtain ⟨q,hq,e⟩ := List.mem_map.mp hp
    cases e
    exact (hroots p hq).2.not_below
  rw [List.length_map] at hlen
  obtain ⟨t,hrun,hdis⟩ := Statement.dismantled_disassemble h.sound hread (hlen.trans harity.symm)
    (nodup_of_statements hd) he (fun p hp => (hroots p hp).1)
    (fun p hp hb => (hroots p hp).2 r hb) (fun b hb => h.assembled hb)
    (fun hb => h.acyclic r (Child.below hb)) hclear
  have hdismantled := h.dismantled hm hr hread hroots he hdis
  refine follows_ok hrun ⟨[],newRoots_nil hdismantled.kept,rfl,?_,hdismantled.mirrors⟩
  rw [← hlabel, htest]
  rfl

theorem follows_assemble {bodies : List Argument} (h : Mirrors s o) (hm : r ∈ s) (hr : s.IsRoot r)
    (ht : ∀ n ∈ test.nodes, s.IsRoot n)
    (hb : ∀ a ∈ bodies, ∀ n ∈ a.node?, n ∈ s ∧ s.IsRoot n ∧ n ≠ r)
    (hd : (bodies.filterMap Argument.node?).Nodup) (hlen : bodies.length = g.arity) :
    Follows s (o.assemble g r test bodies) (Statement.assemble g r test bodies)
      fun e _ t => Stepped s o e .done t := by
  refine follows_bind (h.both_ready hr) (fun f hf => ?_) fun _ _ hready _ => ?_
  · unfold Statement.assemble
    rw [bind_of_error (ask_of_error hf)]
  refine follows_bind (h.both_testOf ht) (fun f hf => ?_) fun _ c hc ⟨hcd,htest⟩ => ?_
  · unfold Statement.assemble
    rw [bind_of_ok (ask_of_ok hready), bind_of_error (ask_of_error hf)]
  subst hcd htest
  refine follows_bind (both_mapM fun a ha => h.both_given hr (hb a ha))
    (fun f hf => ?_) fun _ outs houts ⟨hout,hall,hfree⟩ => ?_
  · unfold Statement.assemble
    rw [bind_of_ok (ask_of_ok hready), bind_of_ok (ask_of_ok hc), bind_of_error (ask_of_error hf)]
  subst hout hall
  have hroots : ∀ p ∈ outs, s.IsRoot p := fun p hp => (hb _ (List.mem_map_of_mem hp) p rfl).2.1
  rw [List.length_map] at hlen
  obtain ⟨ns,t,hrun,hclose,_⟩ := Statement.closed_assemble c h.sound h.acyclic hm hready
    (nodup_of_statements hd) hlen hfree
  obtain ⟨hlost,hclosed⟩ := h.closed hm hr hroots hfree hclose
  have hnew := h.newRoots_children hclose.edits hclosed.kept hlost
  exact follows_ok hrun ⟨_,hnew,(h.parts hr).length_eq,rfl,hclosed.mirrors⟩

theorem follows_disassembleCall (h : Mirrors s o) (hm : r ∈ s) (hr : s.IsRoot r) :
    Follows s (o.disassembleCall r) (Statement.disassembleCall r)
      fun e x t => Stepped s o e (.name x) t := by
  refine follows_bind (h.both_expect hr .call) (fun f hf => ?_) fun t v hv ⟨ht,_,hl,hk⟩ => ?_
  · unfold Statement.disassembleCall
    rw [bind_of_error (ask_of_error hf)]
  rw [ht]
  have hlabel := h.label hr
  obtain ⟨name,hname⟩ := Label.eq_call (l := (s.read r).label) (by rw [hlabel, hl])
    (by rw [hlabel, hk])
  have hread : s.read r = ⟨.call name,(s.read r).children⟩ := by rw [← hname]
  have hrun := Statement.disassembleCall_of_call hread
  have he : Edits True s _ := (Statement.leads_disassembleCall h.sound hm).edits_of_ok hrun
  have huncalled := h.uncalled hm hr hread he
  refine follows_ok hrun ⟨[],newRoots_nil huncalled.kept,rfl,?_,huncalled.mirrors⟩
  rw [← hlabel, hname]
  rfl

theorem follows_assembleCall {name : Argument} (h : Mirrors s o) (hm : r ∈ s) (hr : s.IsRoot r)
    (hn : ∀ n ∈ name.nodes, s.IsRoot n) :
    Follows s (o.assembleCall r name) (Statement.assembleCall r name)
      fun e _ t => Stepped s o e .done t := by
  refine follows_bind (h.both_ready hr) (fun f hf => ?_) fun _ _ hready _ => ?_
  · unfold Statement.assembleCall
    rw [bind_of_error (ask_of_error hf)]
  cases name with
  | text t =>
    have hrun := Statement.assembleCall_of_ready hready t
    have he : Edits True s _ := (Statement.leads_assembleCall hm).edits_of_ok hrun
    obtain ⟨hlost,hcalled⟩ := h.called hm hr he
    have hnew := h.newRoots_children he hcalled.kept hlost
    exact follows_ok hrun ⟨_,hnew,(h.parts hr).length_eq,rfl,hcalled.mirrors⟩
  | _ =>
    refine follows_ask_bind hready (follows_ask (S := fun _ _ => False) ?_ fun _ _ hno => hno.elim)
    exact (h.both_shown hn).bind fun _ _ hxy => hxy ▸ .error nofun

end Mirrors

namespace Command.OnRoots
variable {c : Command} {as : List Argument}

theorem of_mem (h : c.OnRoots s) (ha : a ∈ c.arguments) : ∀ n ∈ a.nodes, n ∈ s ∧ s.IsRoot n :=
  fun n hn => h.roots n (List.mem_flatMap.mpr ⟨a,ha,hn⟩)

theorem of_node? (h : c.OnRoots s) (ha : a ∈ c.arguments) :
    ∀ n ∈ a.node?, n ∈ s ∧ s.IsRoot n := by
  intro n hn
  apply h.of_mem ha
  cases a with
  | statement m => exact List.mem_singleton.mpr (Option.some.inj hn).symm
  | _ => cases hn

theorem receiver (h : c.OnRoots s) (hr : c.arguments = .statement r :: as) : r ∈ s ∧ s.IsRoot r :=
  h.of_node? (hr ▸ List.mem_cons_self ..) r rfl

/-- Whatever else is handed over is another root. -/
theorem other (h : c.OnRoots s) (hr : c.arguments = .statement r :: as) (ha : a ∈ as) :
    ∀ n ∈ a.node?, n ∈ s ∧ s.IsRoot n ∧ n ≠ r := by
  intro n hn
  obtain ⟨hs,hroot⟩ := h.of_node? (hr ▸ List.mem_cons_of_mem _ ha) n hn
  refine ⟨hs,hroot,?_⟩
  rintro rfl
  have hcons : (Argument.statement n :: as).filterMap Argument.node? =
      n :: as.filterMap Argument.node? := rfl
  have hd := h.nodup
  rw [hr, hcons, List.nodup_cons] at hd
  exact hd.1 (List.mem_filterMap.mpr ⟨a,ha,hn⟩)

theorem nodup_of_sublist {bs : List Argument} (h : c.OnRoots s) (hb : bs.Sublist c.arguments) :
    (bs.filterMap Argument.node?).Nodup :=
  h.nodup.sublist (hb.filterMap _)

end Command.OnRoots

/-- A command on roots does to the store what it does to the orchard. -/
theorem Mirrors.follows_step {c : Command} (h : Mirrors s o) (hc : c.OnRoots s) :
    Follows s (o.step c) c.run (Stepped s o) := by
  have hroots : ∀ {a}, a ∈ c.arguments → ∀ n ∈ a.nodes, s.IsRoot n := fun ha n hn =>
    (hc.of_mem ha n hn).2
  have hdisassemble : ∀ {g r outputs}, c.arguments = .statement r :: outputs →
      outputs.length = g.arity → Follows s (o.disassemble g r outputs)
        (Statement.disassemble g r outputs) fun e x t => Stepped s o e (.condition x) t := by
    intro g r outputs hargs hlen
    have hr := hc.receiver hargs
    have ho : ∀ a ∈ outputs, ∀ n ∈ a.node?, n ∈ s ∧ s.IsRoot n := fun a ha =>
      hc.of_node? (hargs ▸ List.mem_cons_of_mem _ ha)
    have hsub : outputs.Sublist c.arguments := hargs ▸ List.sublist_cons_self ..
    have hd := hc.nodup_of_sublist hsub
    exact h.follows_disassemble hr.1 hr.2 ho hd hlen
  have hassemble : ∀ {g r test bodies}, c.arguments = .statement r :: test :: bodies →
      bodies.length = g.arity → Follows s (o.assemble g r test bodies)
        (Statement.assemble g r test bodies) fun e _ t => Stepped s o e .done t := by
    intro g r test bodies hargs hlen
    have hr := hc.receiver hargs
    have ht : ∀ n ∈ test.nodes, s.IsRoot n :=
      hroots (hargs ▸ List.mem_cons_of_mem _ (List.mem_cons_self ..))
    have hb : ∀ a ∈ bodies, ∀ n ∈ a.node?, n ∈ s ∧ s.IsRoot n ∧ n ≠ r := fun a ha =>
      hc.other hargs (List.mem_cons_of_mem _ ha)
    have hsub : bodies.Sublist c.arguments :=
      hargs ▸ ((List.sublist_cons_self test bodies).trans (List.sublist_cons_self ..))
    exact h.follows_assemble hr.1 hr.2 ht hb (hc.nodup_of_sublist hsub) hlen
  have hroot : ∀ {a}, a ∈ c.arguments → ∀ n ∈ a.node?, s.IsRoot n := fun ha n hn =>
    (hc.of_node? ha n hn).2
  cases c with
  | create => exact h.follows_create.answers
  | createLike r => exact h.follows_create.answers
  | copy r =>
    have hr := hc.receiver rfl
    exact (h.follows_copy hr.1 hr.2).answers
  | child r i => exact (h.follows_child (hc.receiver rfl).2 i).answers
  | kind r =>
    have hr := (hc.receiver rfl).2
    refine (h.follows_field (b := .kind) hr fun hl => ?_).answers
    exact congrArg Answer.kind ((kind_read hl).symm.trans (congrArg Label.kind (h.label hr)))
  | length r => exact (h.follows_length (hc.receiver rfl).2).answers
  | remove r pos =>
    have hr := hc.receiver rfl
    exact (h.follows_remove hr.1 hr.2).answers
  | add r pos a =>
    have hr := hc.receiver rfl
    have hpos : ∀ x, pos ≠ .real x := by
      rintro x rfl
      exact Bool.false_ne_true hc.kernel
    have ha := hc.other (a := a) rfl (by simp)
    exact (h.follows_add hr.1 hr.2 hpos ha).answers
  | disassembleIf r output => exact (hdisassemble rfl rfl).answers
  | disassembleIfElse r output₁ output₂ => exact (hdisassemble rfl rfl).answers
  | disassembleWhile r output => exact (hdisassemble rfl rfl).answers
  | disassembleCall r =>
    have hr := hc.receiver rfl
    exact (h.follows_disassembleCall hr.1 hr.2).answers
  | assembleIf r test body => exact (hassemble rfl rfl).answers
  | assembleIfElse r test body₁ body₂ => exact (hassemble rfl rfl).answers
  | assembleWhile r test body => exact (hassemble rfl rfl).answers
  | assembleCall r name =>
    have hr := hc.receiver rfl
    have hn := hroots (a := name) (List.mem_cons_of_mem _ (List.mem_singleton_self name))
    exact (h.follows_assembleCall hr.1 hr.2 hn).answers
  | children r =>
    have hr := (hc.receiver rfl).2
    refine (h.follows_field (b := .statements) hr fun _ => ?_).answers
    refine ⟨_,rfl,map_eq_of_forall₂ ((h.parts hr).imp fun c w hw => ?_)⟩
    exact hw.tree?
  | condition r =>
    have hr := (hc.receiver rfl).2
    refine (h.follows_field (b := .condition) hr fun _ => ?_).answers
    have htest := (h.sound.fits r).label_eq.1
    exact congrArg Answer.condition (htest.symm.trans (congrArg Label.test? (h.label hr)))
  | callName r =>
    have hr := (hc.receiver rfl).2
    refine (h.follows_field (b := .name) hr fun _ => ?_).answers
    have hname := (h.sound.fits r).label_eq.2
    exact congrArg Answer.name (hname.symm.trans (congrArg Label.name? (h.label hr)))
  | size r => exact (h.follows_size (hc.receiver rfl).2).answers
  | text a =>
    have ha := hroots (a := a) (List.mem_singleton_self a)
    have hb : Both (fun e b => ∃ x, e = { reply := .plain (.text x) } ∧ b = .text x)
        (o.step (.text a)) (do return Answer.text (← a.shown s.text)) :=
      (h.both_shown ha).bind fun x _ hxy => .ok ⟨x,rfl,congrArg Answer.text hxy⟩
    refine follows_ask hb ?_
    rintro e b ⟨x,rfl,rfl⟩
    exact h.stepped_view (x := .plain _) rfl
  | equals a b =>
    exact h.follows_truth id (h.follows_equals b (hroots (by simp [Command.arguments]))
      (hroots (by simp [Command.arguments])))
  | differs a b =>
    exact h.follows_truth not (h.follows_equals b (hroots (by simp [Command.arguments]))
      (hroots (by simp [Command.arguments])))
  | equalStatements a b =>
    exact h.follows_truth id (h.follows_equalStatements b (hroot (by simp [Command.arguments]))
      (hroot (by simp [Command.arguments])))
  | count a =>
    exact (h.follows_count (hc.of_node? (List.mem_singleton_self a))).answers
  | countWalking a =>
    exact (h.follows_countWalking (hc.of_node? (List.mem_singleton_self a))).answers
  | _ => exact absurd hc.kernel Bool.false_ne_true

theorem Command.mem_next?_of_ok {c : Command} {b : Answer} (h : c.run s = .ok b t) :
    t ∈ c.next? s := by
  unfold next?
  rw [h]
  exact rfl

theorem Command.mem_next?_of_error {c : Command} {f : Fault} (h : c.run s = .error f t)
    (hf : f ≠ .endless) : t ∈ c.next? s := by
  unfold next?
  rw [h]
  cases f with
  | endless => exact absurd rfl hf
  | _ => exact rfl

theorem Mirrors.agree {cs : List Command} (h : Mirrors s o) (hcs : RunsOnRoots s cs) :
    Agree s o cs := by
  induction cs generalizing s o with
  | nil => trivial
  | cons c cs ih =>
    obtain ⟨hc,hrest⟩ := hcs
    have hstep := h.follows_step hc
    unfold Follows at hstep
    unfold Agree
    cases hx : o.step c with
    | ok e =>
      cases hy : c.run s with
      | ok b t =>
        rw [hx, hy] at hstep
        obtain ⟨names,hnew,hlen,hb,hm⟩ := hstep
        have hvalues : ∀ n, t.IsRoot n → t.tree? n = some (o.after e names n) := fun n hn =>
          (hm.holds n hn).tree?
        exact ⟨names,hnew,hlen,hb,hvalues,ih hm (hrest t (Command.mem_next?_of_ok hy))⟩
      | error f t =>
        rw [hx, hy] at hstep
        exact hstep
    | error f =>
      cases hy : c.run s with
      | ok b t =>
        rw [hx, hy] at hstep
        exact hstep
      | error f' t =>
        rw [hx, hy] at hstep
        obtain ⟨rfl,hf,rfl⟩ := hstep
        exact ⟨rfl,rfl,ih h (hrest _ (Command.mem_next?_of_error hy hf))⟩

/-- Value semantics under ownership: a run that only handles roots, all different in one step, is
one in which every root has a tree to itself. -/
theorem agree_of_runsOnRoots {cs : List Command} (h : RunsOnRoots {} cs) :
    Agree {} (fun _ => .block []) cs :=
  mirrors_empty.agree h

/-- A run that builds a statement, copies, counts, compares and takes apart, with two steps that
fail. -/
def rounds : List Command :=
  [.create,.create,.create,.assembleCall ⟨0⟩ (.text "move"),
    .add ⟨1⟩ (.int 0) (.statement ⟨0⟩),.assembleIf ⟨2⟩ (.condition .random) (.statement ⟨1⟩),
    .copy ⟨2⟩,.count (.statement ⟨2⟩),.disassembleWhile ⟨2⟩ (.statement ⟨0⟩),
    .disassembleIf ⟨2⟩ (.statement ⟨0⟩),.size ⟨2⟩,.remove ⟨0⟩ (.int 0),
    .equals (.statement ⟨0⟩) (.statement ⟨1⟩)]

theorem agree_of_rounds : RunsOnRoots {} rounds ∧ Agree {} (fun _ => .block []) rounds := by
  have h : RunsOnRoots {} rounds := by decide +kernel
  exact ⟨h,agree_of_runsOnRoots h⟩

end RobotCode
