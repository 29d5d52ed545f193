import RobotCode.Proofs.Graph

/-! # Sound stores

In a sound store every child is in use and has one parent, and the fields of every statement fit
together. Operations change a store by three sorts of edits: a new empty block, a write whose new
children are roots, and a move into an empty block. Edits keep a store sound. They keep it free of
cycles as well, provided that nothing is moved into a node below itself.
-/
namespace RobotCode
open Relation

/-- The lists of children that a label can stand over. -/
def Label.Admits : Label → List NodeId → Prop
  | .block, _ => True
  | .guarded g _, cs => cs.length = g.arity
  | .call _, cs => cs = []
  | .pending k, cs => k ≠ .block ∧ cs = []

def Node.Shaped (v : Node) : Prop := v.label.Admits v.children

/-- Which labels can be written over `l`. A statement is taken apart as what it is; unless this is
`strict`, also as what it was before it became an empty block. -/
def Label.Yields (strict : Prop) (l : Label) : Label → Prop
  | .pending k => l.kind = k ∨ ¬ strict ∧ l = .block
  | .block => l = .block
  | _ => True

theorem Label.Yields.loosen {strict : Prop} {l l' : Label} (h : l.Yields strict l') :
    l.Yields False l' := by
  cases l' with
  | pending k => exact h.imp_right fun h => ⟨id,h.2⟩
  | _ => exact h

/-- What the fields of a statement of each kind have and lack. -/
def Cell.Fits (c : Cell) : Prop :=
  match c.awaited?, c.kind with
  | some awaited, kind => awaited ≠ .block ∧ (kind = awaited ∨ kind = .block) ∧
      c.test? = none ∧ c.name? = none ∧ c.children = []
  | none, .block => c.test? = none ∧ c.name? = none
  | none, .ifElse => c.test?.isSome ∧ c.name? = none ∧ c.children.length = 2
  | none, .call => c.name?.isSome ∧ c.test? = none ∧ c.children = []
  | none, _ => c.test?.isSome ∧ c.name? = none ∧ c.children.length = 1

namespace Cell
variable {c : Cell} {v : Node}

theorem fits_empty : Fits {} := ⟨rfl,rfl⟩

theorem fits_guarded {g : Guarded} {test : Condition} {cs : List NodeId} :
    (guarded g test cs).Fits ↔ cs.length = g.arity := by
  cases g <;> simp [Fits, guarded, Guarded.kind, Guarded.arity]

theorem yields_label {strict : Prop} (h : c.awaited? = none) :
    Label.Yields strict .block c.label := by
  obtain ⟨k,_,_,_,_⟩ := c
  cases h
  cases k with
  | block => rfl
  | _ => trivial

namespace Fits

theorem shaped (h : c.Fits) : c.node.Shaped := by
  obtain ⟨k,_,_,_,a⟩ := c
  cases a with
  | some awaited => exact ⟨h.1,h.2.2.2.2⟩
  | none =>
    cases k with
    | block => trivial
    | call => exact h.2.2
    | ifThen | ifElse | whileDo => exact h.2.2

/-- What is read of the statement tells all of its fields, apart from the kind that one taken apart
still has. -/
theorem label_eq (h : c.Fits) : c.label.test? = c.test? ∧ c.label.name? = c.name? := by
  obtain ⟨k,_,_,_,a⟩ := c
  cases a with
  | some awaited => exact ⟨h.2.2.1.symm,h.2.2.2.1.symm⟩
  | none =>
    cases k with
    | block => exact ⟨h.1.symm,h.2.symm⟩
    | call =>
      obtain ⟨name,hname⟩ := Option.isSome_iff_exists.mp h.1
      cases hname
      exact ⟨h.2.1.symm,rfl⟩
    | ifThen | ifElse | whileDo =>
      obtain ⟨test,htest⟩ := Option.isSome_iff_exists.mp h.1
      cases htest
      exact ⟨rfl,h.2.1.symm⟩

theorem of_length {cs : List NodeId} (h : c.Fits) (ha : c.awaited? = none)
    (hl : cs.length = c.children.length) :
    Fits { c with children := cs, awaited? := none } := by
  obtain ⟨k,_,_,ds,_⟩ := c
  cases ha
  cases k with
  | block => exact h
  | call =>
    obtain rfl : ds = [] := h.2.2
    exact ⟨h.1,h.2.1,List.length_eq_zero_iff.mp hl⟩
  | ifThen | ifElse | whileDo => exact ⟨h.1,h.2.1,hl.trans h.2.2⟩

/-- A statement as it is now is what a new one becomes that is to be read as it. -/
theorem become_node (h : c.Fits) (ha : c.awaited? = none) : Cell.become {} c.node = c := by
  obtain ⟨k,test,name,cs,_⟩ := c
  cases ha
  cases k with
  | block =>
    obtain ⟨rfl,rfl⟩ := h
    rfl
  | call =>
    obtain ⟨_,rfl⟩ := Option.isSome_iff_exists.mp h.1
    obtain rfl : test = none := h.2.1
    rfl
  | ifThen | ifElse | whileDo =>
    obtain ⟨_,rfl⟩ := Option.isSome_iff_exists.mp h.1
    obtain rfl : name = none := h.2.1
    rfl

theorem kind_of_yields {k : Kind} (h : c.Fits) (hl : c.label.Yields False (.pending k)) :
    c.kind = k ∨ c.kind = .block := by
  cases ha : c.awaited? with
  | none =>
    rw [← kind_label ha]
    exact hl.imp_right fun hb => by rw [hb.2]; rfl
  | some j =>
    rw [label_of_some ha] at hl
    unfold Fits at h
    rw [ha] at h
    rcases hl with rfl | ⟨_,hb⟩
    · exact h.2.1
    · cases hb

theorem test?_eq_none (h : c.Fits) (hk : c.kind = .call ∨ c.kind = .block) : c.test? = none := by
  obtain ⟨k,_,_,_,a⟩ := c
  cases a with
  | some awaited => exact h.2.2.1
  | none =>
    rcases hk with rfl | rfl
    · exact h.2.1
    · exact h.1

theorem name?_eq_none (h : c.Fits) (hk : c.kind ≠ .call) : c.name? = none := by
  obtain ⟨k,_,_,_,a⟩ := c
  cases a with
  | some awaited => exact h.2.2.2.1
  | none =>
    cases k with
    | call => exact absurd rfl hk
    | block => exact h.2
    | ifThen | ifElse | whileDo => exact h.2.1

theorem become (h : c.Fits) (hl : c.label.Yields False v.label) (hv : v.Shaped) :
    (c.become v).Fits := by
  obtain ⟨l,cs⟩ := v
  cases l with
  | block =>
    obtain ⟨hk,ha⟩ := kind_eq_block hl
    unfold Fits at h
    rw [hk, ha] at h
    exact h
  | guarded g test => exact fits_guarded.mpr hv
  | call name => exact ⟨rfl,rfl,hv⟩
  | pending k =>
    have hkind := h.kind_of_yields hl
    have hcall (hk : k ≠ .call) : c.kind ≠ .call := by
      rcases hkind with e | e <;> rw [e]
      · exact hk
      · exact nofun
    cases k with
    | call => exact ⟨hv.1,hkind,h.test?_eq_none hkind,rfl,hv.2⟩
    | block => exact absurd rfl hv.1
    | ifThen | ifElse | whileDo =>
      exact ⟨hv.1,hkind,rfl,h.name?_eq_none (hcall nofun),hv.2⟩

end Fits
end Cell

namespace Store
variable {tame : Prop} {s t u : Store} {a b c n p q : NodeId} {v : Node}

structure Sound (s : Store) : Prop where
  mem_of_child : ∀ {p c}, s.Child p c → c ∈ s
  nodup : ∀ p, (s.read p).children.Nodup
  parent_unique : ∀ {p q c}, s.Child p c → s.Child q c → p = q
  fits : ∀ p, (s.cell p).Fits

theorem Sound.shaped (h : s.Sound) (p : NodeId) : (s.read p).Shaped := (h.fits p).shaped

theorem sound_empty : Sound {} where
  mem_of_child h := by simp [Child] at h
  nodup p := by simp
  parent_unique h := by simp [Child] at h
  fits p := by
    rw [cell_empty]
    exact Cell.fits_empty

theorem Sound.admits {l : Label} {cs : List NodeId} (h : s.Sound) (hp : s.read p = ⟨l,cs⟩) :
    l.Admits cs := by
  have hshape := h.shaped p
  rwa [Node.Shaped, hp] at hshape

theorem Sound.nodup_of_read {l : Label} {cs : List NodeId} (h : s.Sound) (hp : s.read p = ⟨l,cs⟩) :
    cs.Nodup := by
  have hnodup := h.nodup p
  rwa [hp] at hnodup

theorem Sound.noSharing (h : s.Sound) : s.NoSharing :=
  noSharing_iff.mpr ⟨h.nodup,fun _ _ _ => h.parent_unique⟩

theorem Sound.mem_of_below (h : s.Sound) (hb : s.Below a b) : b ∈ s := by
  obtain ⟨c,_,hc⟩ := below_iff_tail.mp hb
  exact h.mem_of_child hc

theorem Sound.mem_of_within (h : s.Sound) (ha : a ∈ s) (hw : s.Within a b) : b ∈ s := by
  rcases within_iff.mp hw with rfl | hb
  · exact ha
  · exact h.mem_of_below hb

/-- What the next node is called is not in use as a child. -/
theorem Sound.isRoot_next (h : s.Sound) : s.IsRoot s.next := fun _ hc =>
  s.next_not_mem (h.mem_of_child hc)

/-- One change of a store. A `tame` edit moves nothing into a node below itself, and takes no
statement apart that has become an empty block. -/
inductive Edit (tame : Prop) : Store → Store → Prop
  | alloc (s : Store) : Edit tame s (s.push {})
  | write {s : Store} {n : NodeId} {v : Node} (hn : n ∈ s)
      (hl : (s.read n).label.Yields tame v.label) (hv : v.Shaped) (hd : v.children.Nodup)
      (hc : ∀ c ∈ v.children, v.label = (s.read n).label ∧ s.Child n c ∨
        c ∈ s ∧ s.IsRoot c ∧ ¬ s.Within c n) :
      Edit tame s (s.write n v)
  | transfer {s : Store} {a b : NodeId} (ha : a ∈ s) (hb : b ∈ s) (he : s.read b = {})
      (ht : tame → ¬ s.Below a b) : Edit tame s (s.transfer a b)

theorem Edit.size_le (h : Edit tame s t) : s.size ≤ t.size := by
  cases h with
  | alloc => simp
  | write hn => exact Nat.le_of_eq (size_write_of_mem hn).symm
  | transfer ha hb => exact Nat.le_of_eq (size_transfer ha hb).symm

theorem Sound.push_empty (h : s.Sound) : (s.push {}).Sound where
  mem_of_child hc := mem_push.mpr (Or.inl (h.mem_of_child (child_push_empty.mp hc)))
  nodup p := by
    rw [read_push_empty]
    exact h.nodup p
  parent_unique hp hq := h.parent_unique (child_push_empty.mp hp) (child_push_empty.mp hq)
  fits p := by
    rw [cell_push]
    split
    next => exact Cell.fits_empty
    next => exact h.fits p

theorem Sound.write (h : s.Sound) (hl : (s.read n).label.Yields False v.label) (hv : v.Shaped)
    (hd : v.children.Nodup)
    (hc : ∀ c ∈ v.children, s.Child n c ∨ c ∈ s ∧ s.IsRoot c ∧ ¬ s.Within c n) :
    (s.write n v).Sound where
  mem_of_child hpc := by
    apply mem_write
    rw [child_write] at hpc
    split at hpc
    next =>
      rcases hc _ hpc with ho | ⟨hs,_⟩
      · exact h.mem_of_child ho
      · exact hs
    next => exact h.mem_of_child hpc
  nodup p := by
    rw [read_write]
    split
    next => exact hd
    next => exact h.nodup p
  parent_unique {p q c} hp hq := by
    have hold : ∀ {m}, m ≠ n → c ∈ v.children → s.Child m c → False := by
      intro m hm hcv hmc
      rcases hc c hcv with ho | ⟨_,hr,_⟩
      · exact hm (h.parent_unique hmc ho)
      · exact hr m hmc
    rw [child_write] at hp hq
    by_cases hpn : p = n
    · rw [if_pos hpn] at hp
      by_cases hqn : q = n
      · rw [hpn,hqn]
      · rw [if_neg hqn] at hq
        exact (hold hqn hp hq).elim
    · rw [if_neg hpn] at hp
      by_cases hqn : q = n
      · rw [if_pos hqn] at hq
        exact (hold hpn hq hp).elim
      · rw [if_neg hqn] at hq
        exact h.parent_unique hp hq
  fits p := by
    rw [Store.write, cell_put]
    split
    next => exact (h.fits n).become hl hv
    next => exact h.fits p

theorem Sound.transfer (h : s.Sound) : (s.transfer a b).Sound where
  mem_of_child hc := by
    apply mem_put
    apply mem_put
    obtain ⟨_,hc⟩ := child_transfer.mp hc
    split at hc <;> exact h.mem_of_child hc
  nodup p := by
    rw [read_transfer]
    split
    next => exact List.nodup_nil
    next => split <;> exact h.nodup _
  parent_unique {p q c} hp hq := by
    obtain ⟨hpa,hp⟩ := child_transfer.mp hp
    obtain ⟨hqa,hq⟩ := child_transfer.mp hq
    by_cases hpb : p = b
    · rw [if_pos hpb] at hp
      by_cases hqb : q = b
      · rw [hpb,hqb]
      · rw [if_neg hqb] at hq
        exact absurd (h.parent_unique hq hp) hqa
    · rw [if_neg hpb] at hp
      by_cases hqb : q = b
      · rw [if_pos hqb] at hq
        exact absurd (h.parent_unique hp hq) hpa
      · rw [if_neg hqb] at hq
        exact h.parent_unique hp hq
  fits p := by
    rw [cell_transfer]
    split
    next => exact Cell.fits_empty
    next => split <;> exact h.fits _

theorem Edit.sound (h : Edit tame s t) (hs : s.Sound) : t.Sound := by
  cases h with
  | alloc => exact hs.push_empty
  | write _ hl hv hd hc => exact hs.write hl.loosen hv hd fun c hm => (hc c hm).imp_left And.right
  | transfer => exact hs.transfer

theorem Edit.acyclic (h : Edit True s t) (hs : s.Acyclic) : t.Acyclic := by
  cases h with
  | alloc =>
    intro n hn
    rw [Below, child_push_empty_eq] at hn
    exact hs n hn
  | write _ _ _ _ hc => exact hs.write fun c hv => (hc c hv).imp And.right fun hr => hr.2.2
  | transfer _ _ _ ht => exact hs.transfer (ht trivial)

/-- No guarded statement is one of its own bodies. -/
def Loopless (s : Store) : Prop := ∀ n, ¬ s.Body n n

theorem Acyclic.loopless (h : s.Acyclic) : s.Loopless := fun n hn => h n hn.1.below

theorem Edit.loopless (h : Edit tame s t) (htame : tame) (hs : s.Loopless) : t.Loopless := by
  rintro m ⟨hm,g,test,hg⟩
  cases h with
  | alloc =>
    rw [child_push_empty] at hm
    rw [read_push_empty] at hg
    exact hs m ⟨hm,g,test,hg⟩
  | write _ _ _ _ hc =>
    rw [child_write] at hm
    rw [read_write] at hg
    split at hm
    next e =>
      rw [if_pos e] at hg
      rcases hc m hm with ⟨hl,hold⟩ | ⟨_,_,hw⟩
      · exact hs m ⟨e ▸ hold,g,test,by rw [e, ← hl, hg]⟩
      · exact hw (e ▸ within_refl s m)
    next e =>
      rw [if_neg e] at hg
      exact hs m ⟨hm,g,test,hg⟩
  | transfer _ _ _ ht =>
    obtain ⟨hma,hm⟩ := child_transfer.mp hm
    rw [read_transfer, if_neg hma] at hg
    split at hm
    next e => exact ht htame (e ▸ hm).below
    next e =>
      rw [if_neg e] at hg
      exact hs m ⟨hm,g,test,hg⟩

/-- Every statement taken apart is of the kind that it has to be assembled as. -/
def KeepsKinds (s : Store) : Prop := ∀ n, ∀ k ∈ (s.cell n).awaited?, (s.cell n).kind = k

theorem KeepsKinds.transfer (h : s.KeepsKinds) : (s.transfer a b).KeepsKinds := by
  intro n
  rw [cell_transfer]
  split
  next => exact nofun
  next => split <;> exact h _

theorem KeepsKinds.write (h : s.KeepsKinds) (hl : (s.read n).label.Yields True v.label) :
    (s.write n v).KeepsKinds := by
  intro m k hk
  rw [Store.write, cell_put] at hk ⊢
  split at hk
  next e =>
    rw [← Cell.awaited?_label, Cell.label_become] at hk
    rw [if_pos e, Cell.kind_become hk]
    rw [Label.eq_pending hk] at hl
    have hkind : (s.read n).label.kind = k := hl.resolve_right fun hno => hno.1 trivial
    cases ha : (s.cell n).awaited? with
    | none => exact (Cell.kind_label ha).symm.trans hkind
    | some j =>
      rw [read, Cell.node, Cell.label_of_some ha] at hkind
      exact (h n j ha).trans hkind
  next e =>
    rw [if_neg e]
    exact h m k hk

theorem Edit.keepsKinds (h : Edit True s t) (hs : s.KeepsKinds) : t.KeepsKinds := by
  cases h with
  | alloc =>
    intro n
    rw [cell_push]
    split
    next => exact nofun
    next => exact hs n
  | write _ hl => exact hs.write hl
  | transfer => exact hs.transfer

/-- Any number of edits, one after another. -/
abbrev Edits (tame : Prop) : Store → Store → Prop := ReflTransGen (Edit tame)

namespace Edits

theorem trans (h : Edits tame s t) (k : Edits tame t u) : Edits tame s u := ReflTransGen.trans h k

theorem size_le (h : Edits tame s t) : s.size ≤ t.size := by
  induction h with
  | refl => exact Nat.le_refl _
  | tail _ he ih => exact Nat.le_trans ih he.size_le

theorem mem (h : Edits tame s t) (hn : n ∈ s) : n ∈ t := Nat.lt_of_lt_of_le hn h.size_le

theorem sound (h : Edits tame s t) (hs : s.Sound) : t.Sound := by
  induction h with
  | refl => exact hs
  | tail _ he ih => exact he.sound ih

theorem acyclic (h : Edits True s t) (hs : s.Acyclic) : t.Acyclic := by
  induction h with
  | refl => exact hs
  | tail _ he ih => exact he.acyclic ih

theorem loopless (h : Edits tame s t) (hs : tame → s.Loopless) (htame : tame) : t.Loopless := by
  induction h with
  | refl => exact hs htame
  | tail _ he ih => exact he.loopless htame ih

theorem keepsKinds (h : Edits True s t) (hs : s.KeepsKinds) : t.KeepsKinds := by
  induction h with
  | refl => exact hs
  | tail _ he ih => exact he.keepsKinds ih

end Edits
end Store
end RobotCode
