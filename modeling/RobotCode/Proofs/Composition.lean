import RobotCode.Proofs.Halt
import RobotCode.Proofs.Outputs
import RobotCode.Proofs.Places

/-! # What a statement can be put together from

All that can stand in the way is found out before anything is moved: what is free to go below a
statement still is when the others have gone there. An argument inside another one goes its own way,
and an empty block is left in its place.
-/
namespace RobotCode
open Store
open List (Forall₂)
variable {s t : Store} {b m n r x : NodeId} {g : Guarded} {c : Condition} {a test : Argument}
  {args : List Argument} {bodies ns : List NodeId}

theorem Guarded.arity_le (g : Guarded) : g.arity ≤ 2 := by cases g <;> decide

theorem eq_or_eq_of_mem (hlen : bodies.length ≤ 2) (hb : b ∈ bodies) (hx : x ∈ bodies) (hne : x ≠ b)
    (hm : m ∈ bodies) : m = b ∨ m = x := by
  by_contra h
  rw [not_or] at h
  have hn : [m,x,b].Nodup := by simp [h.1, h.2, hne]
  have hsub : [m,x,b] ⊆ bodies := by simp [hb, hx, hm]
  have hle := (List.subperm_of_subset hn hsub).length_le
  simp only [List.length_cons, List.length_nil] at hle
  omega

namespace Statement
open StoreM

/-- A test and arguments that `r` can be made a statement of kind `g` from. -/
structure Composable (s : Store) (g : Guarded) (r : NodeId) (test : Argument) (args : List Argument)
    (c : Condition) (bodies : List NodeId) : Prop where
  awaited : ∀ k, (s.read r).label.awaited? = some k → k = g.kind
  test_eq : test = .condition c
  args_eq : args = bodies.map .statement
  nodup : bodies.Nodup
  free : ∀ b ∈ bodies, Free s r b

/-- What `b` has become as the new child `n`: its value, with an empty block in the place of a body
inside. -/
def Inherits (s : Store) (bodies : List NodeId) (t : Store) (b n : NodeId) : Prop :=
  ∃ w, s.tree? b = some w ∧ ((∀ x ∈ bodies, ¬ s.Below b x) → t.tree? n = some w) ∧
    ∀ x ∈ bodies, s.Below b x →
      ∃ path, s.follow? path b = some x ∧ t.tree? n = some (w.emptyAt path)

/-- `r` has been put together: its children `ns` are the new nodes, and what else has changed are the
bodies. -/
structure Composed (s : Store) (g : Guarded) (r : NodeId) (c : Condition) (bodies ns : List NodeId)
    (t : Store) : Prop where
  read : t.read r = ⟨.guarded g c,ns⟩
  nodup : ns.Nodup
  fresh : ∀ n, n ∈ ns ↔ n ∈ t ∧ n ∉ s
  emptied : ∀ b ∈ bodies, t.read b = {}
  kept : ∀ m ∈ s, m ≠ r → m ∉ bodies → t.read m = s.read m
  inherits : Forall₂ (Inherits s bodies t) bodies ns

theorem ready_eq_ok_iff {k : Kind} :
    s.ready k r = .ok () ↔ ∀ j, (s.read r).label.awaited? = some j → j = k := by
  rw [ready_eq]
  cases (s.read r).label.awaited? with
  | none => simp
  | some j => by_cases h : j = k <;> simp [h]

theorem of_testOf {text : NodeId → Except Fault String} (h : testOf text test = .ok c) :
    test = .condition c := by
  unfold testOf at h
  split at h
  next =>
    cases h
    rfl
  next =>
    obtain ⟨_,_,h⟩ := bind_eq_ok_iff.mp h
    cases h

/-- The checks that come first find out all that is needed. -/
theorem composable_of_checks (hk : ∀ a ∈ args, a.Known s) (hready : s.ready g.kind r = .ok ())
    (htest : testOf s.text test = .ok c) (hargs : args.mapM (s.insertable r) = .ok bodies)
    (hd : bodies.Nodup) : Composable s g r test args c bodies := by
  have hall : Forall₂ (fun a b => a = .statement b ∧ Free s r b) args bodies :=
    (forall₂_with_mem (mapM_eq_ok_iff.mp hargs)).imp fun a b h => free_of_insertable (hk a h.1) h.2
  refine ⟨ready_eq_ok_iff.mp hready,of_testOf htest,?_,hd,fun b hb => ?_⟩
  · have hmap := map_eq_of_forall₂ (f := id) (hall.imp fun _ _ h => h.1)
    rwa [List.map_id] at hmap
  · obtain ⟨_,_,_,hfree⟩ := exists_of_forall₂ hall.flip hb
    exact hfree

theorem composable_of_assemble (hk : ∀ a ∈ args, a.Known s)
    (h : assemble g r test args s = .ok () t) : ∃ c bodies, Composable s g r test args c bodies := by
  unfold assemble at h
  obtain ⟨_,s₁,hready,h₁⟩ := exists_of_bind_ok h
  obtain ⟨hready,rfl⟩ := of_ask hready
  obtain ⟨c,s₂,htest,h₂⟩ := exists_of_bind_ok h₁
  obtain ⟨htest,rfl⟩ := of_ask htest
  obtain ⟨bodies,s₃,hargs,h₃⟩ := exists_of_bind_ok h₂
  obtain ⟨hargs,rfl⟩ := of_ask hargs
  obtain ⟨_,s₄,hdistinct,_⟩ := exists_of_bind_ok h₃
  obtain ⟨rfl,hd⟩ := of_requireDistinct hdistinct
  exact ⟨c,bodies,composable_of_checks hk hready htest hargs hd⟩

namespace Closed

/-- Below a body only other bodies are touched. -/
theorem kept_below (h : Closed s r g c bodies ns t) (hs : s.Sound) (hf : Free s r b)
    (hm : s.Below b m) (hnot : m ∉ bodies) : t.read m = s.read m := by
  refine h.kept (hs.mem_of_below hm) ?_ hnot
  rintro rfl
  exact hf.not_below hm

theorem inherits (h : Closed s r g c bodies ns t) (hs : s.Sound) (ha : s.Acyclic)
    (hlen : bodies.length ≤ 2) (hf : ∀ b ∈ bodies, Free s r b) (hb : b ∈ bodies)
    (hn : t.read n = s.read b) : Inherits s bodies t b n := by
  have hat : t.Acyclic := h.edits.acyclic ha
  obtain ⟨w,hw⟩ := exists_holds ha b
  refine ⟨w,hw.tree?,fun hnone => ?_,fun x hx hbx => ?_⟩
  · have hmoved : t.Holds n w := hw.of_moved hn fun m hm =>
      h.kept_below hs (hf b hb) hm fun hmb => hnone m hmb hm
    exact hmoved.tree?
  · obtain ⟨i,path,hpath⟩ := exists_follow? hbx
    have hxb : x ≠ b := by
      rintro rfl
      exact ha x hbx
    have hkept : ∀ m, s.Below b m → m ≠ x → t.read m = s.read m := by
      intro m hm hmx
      refine h.kept_below hs (hf b hb) hm fun hmb => ?_
      rcases eq_or_eq_of_mem hlen hb hx hxb hmb with rfl | rfl
      · exact ha m hm
      · exact hmx rfl
    have hempty : t.Holds n (w.emptyAt (i :: path)) :=
      hs.holds_emptyAt ha hw hpath (h.emptied hx (hf x hx).mem (hf x hx).ne) hn hkept
    exact ⟨i :: path,hpath,hempty.tree?⟩

theorem composed (h : Closed s r g c bodies ns t) (hs : s.Sound) (ha : s.Acyclic)
    (hlen : bodies.length ≤ 2) (hf : ∀ b ∈ bodies, Free s r b)
    (hmem : ∀ m, m ∈ t ↔ m ∈ s ∨ m ∈ ns) : Composed s g r c bodies ns t where
  read := h.read
  nodup := (h.edits.sound hs).nodup_of_read h.read
  fresh n := by
    rw [hmem]
    exact ⟨fun hn => ⟨Or.inr hn,h.fresh n hn⟩,fun hn => hn.1.resolve_left hn.2⟩
  emptied b hb := h.emptied hb (hf b hb).mem (hf b hb).ne
  kept m hm hmr hmb := h.kept hm hmr hmb
  inherits := (forall₂_with_mem h.moved).imp fun _ _ hbn => h.inherits hs ha hlen hf hbn.1 hbn.2

end Closed

theorem Composable.exists_composed (h : Composable s g r test args c bodies) (hs : s.Sound)
    (ha : s.Acyclic) (hr : r ∈ s) (hlen : args.length = g.arity) :
    ∃ ns t, assemble g r test args s = .ok () t ∧ Composed s g r c bodies ns t := by
  obtain ⟨hawaited,rfl,rfl,hd,hf⟩ := h
  rw [List.length_map] at hlen
  obtain ⟨ns,t,ht,hclose,hmem⟩ :=
    closed_assemble c hs ha hr (ready_eq_ok_iff.mpr hawaited) hd hlen hf
  exact ⟨ns,t,ht,hclose.composed hs ha (hlen ▸ g.arity_le) hf hmem⟩

end Statement

open Statement

/-- In a forest, a statement is put together, as an `if` or a `while` with one body or as an `if` with
two, exactly if it does not await another kind, the test is a condition, and the arguments are
different assembled statements other than it that do not hold it. Then it has the test and new
children, one for each body. The bodies are left empty, and nothing else is changed. The children have
the values that the bodies had, except that one body inside the other leaves an empty block there. -/
theorem assemble_composes {allowed : Store → Command → Prop} (h : Reachable allowed s)
    (hf : s.Forest) (hr : r ∈ s) (hk : ∀ a ∈ args, a.Known s) (hlen : args.length = g.arity) :
    ((∃ t, assemble g r test args s = .ok () t) ↔
      ∃ c bodies, Composable s g r test args c bodies) ∧
    ∀ t, assemble g r test args s = .ok () t →
      ∃ c bodies ns, Composable s g r test args c bodies ∧ Composed s g r c bodies ns t := by
  have hs := h.sound
  have hall : ∀ {c bodies}, Composable s g r test args c bodies →
      ∃ ns t, assemble g r test args s = .ok () t ∧ Composed s g r c bodies ns t :=
    fun hc => hc.exists_composed hs hf.acyclic hr hlen
  refine ⟨⟨fun ⟨t,ht⟩ => composable_of_assemble hk ht,fun ⟨c,bodies,hc⟩ => ?_⟩,fun t ht => ?_⟩
  · obtain ⟨_,t,ht,_⟩ := hall hc
    exact ⟨t,ht⟩
  · obtain ⟨c,bodies,hc⟩ := composable_of_assemble hk ht
    obtain ⟨ns,u,hu,hcomposed⟩ := hall hc
    rw [ht] at hu
    cases hu
    exact ⟨c,bodies,ns,hc,hcomposed⟩

/-- A choice put together anew from its own content: the call in its body, and the body itself. -/
theorem assemble_composes_wrapped : wrapped.Child ⟨6⟩ ⟨4⟩ ∧ wrapped.Child ⟨4⟩ ⟨2⟩ ∧
    ∃ t, assembleIfElse ⟨6⟩ (.condition .always) (.statement ⟨2⟩) (.statement ⟨4⟩) wrapped =
        .ok () t ∧
      t.tree? ⟨6⟩ = some (.guarded .ifElse .always [.call "move",.block [.block []]]) ∧
      ∃ c bodies ns, Composable wrapped .ifElse ⟨6⟩ (.condition .always)
          [.statement ⟨2⟩,.statement ⟨4⟩] c bodies ∧ Composed wrapped .ifElse ⟨6⟩ c bodies ns t := by
  have hrun : ∃ t, assembleIfElse ⟨6⟩ (.condition .always) (.statement ⟨2⟩) (.statement ⟨4⟩)
      wrapped = .ok () t ∧
      t.tree? ⟨6⟩ = some (.guarded .ifElse .always [.call "move",.block [.block []]]) := ⟨_,rfl,rfl⟩
  obtain ⟨t,ht,hvalue⟩ := hrun
  exact ⟨List.mem_singleton_self _,List.mem_singleton_self _,t,ht,hvalue,
    (assemble_composes reachable_wrapped forest_wrapped (by decide) (by decide) rfl).2 t ht⟩

end RobotCode
