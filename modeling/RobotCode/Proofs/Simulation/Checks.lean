import RobotCode.Proofs.Mirrors.Guarded
import RobotCode.Proofs.Recount

/-! # Checks on the store and on the orchard

Every check of an operation on roots comes out the same on the store and on the orchard: it fails
in both for the same reason, or in neither.
-/
namespace RobotCode
open Store StoreM
open List (Forall₂)
variable {α β γ δ : Type} {s t : Store} {o : Orchard} {a : Argument} {n r : NodeId} {k : Kind}

/-- Both fail for the same reason, which is not that there is no end, or both have results. -/
inductive Both (R : α → β → Prop) : Except Fault α → Except Fault β → Prop
  | ok {x : α} {y : β} (h : R x y) : Both R (.ok x) (.ok y)
  | error {f : Fault} (h : f ≠ .endless) : Both R (.error f) (.error f)

theorem both_of_eq {x y : Except Fault α} (hxy : y = x) (hx : x ≠ .error .endless) :
    Both (fun a b => b = a ∧ x = .ok a) x y := by
  subst hxy
  cases y with
  | error f => exact .error fun h => hx (by rw [h])
  | ok a => exact .ok ⟨rfl,rfl⟩

theorem Both.map_left {R : α → β → Prop} {Q : γ → β → Prop} {x : Except Fault α}
    {y : Except Fault β} {f : α → γ} (h : Both R x y) (hf : ∀ a b, R a b → Q (f a) b) :
    Both Q (x >>= fun a => pure (f a)) y := by
  cases h with
  | ok h => exact .ok (hf _ _ h)
  | error h => exact .error h

theorem Both.bind {R : α → β → Prop} {Q : γ → δ → Prop} {x : Except Fault α} {y : Except Fault β}
    {f : α → Except Fault γ} {g : β → Except Fault δ} (h : Both R x y)
    (hfg : ∀ a b, R a b → Both Q (f a) (g b)) : Both Q (x >>= f) (y >>= g) := by
  cases h with
  | ok h => exact hfg _ _ h
  | error h => exact .error h

/-- Checks one by one that arguments are statements of which `P` holds. -/
theorem both_mapM {P : NodeId → Prop} {f g : Argument → Except Fault NodeId} {as : List Argument}
    (h : ∀ a ∈ as, Both (fun m n => n = m ∧ a = .statement m ∧ P m) (f a) (g a)) :
    Both (fun ms ns => ns = ms ∧ as = ms.map .statement ∧ ∀ m ∈ ms, P m) (as.mapM f)
      (as.mapM g) := by
  induction as with
  | nil => exact .ok ⟨rfl,rfl,by simp⟩
  | cons a as ih =>
    rw [List.mapM_cons, List.mapM_cons]
    refine (h a (List.mem_cons_self ..)).bind fun m n ⟨hn,ha,hm⟩ => ?_
    refine (ih fun b hb => h b (List.mem_cons_of_mem _ hb)).bind fun ms ns ⟨hns,has,hms⟩ => ?_
    refine .ok ⟨by rw [hn, hns],by rw [ha, has, List.map_cons],?_⟩
    exact List.forall_mem_cons.mpr ⟨hm,hms⟩

/-- An edit of the store goes like a computation without one: it fails for the same reason and
changes nothing, or the results and the store that it leaves are related. -/
def Follows (s : Store) (x : Except Fault α) (y : StoreM β) (R : α → β → Store → Prop) : Prop :=
  match x, y s with
  | .ok a, .ok b t => R a b t
  | .error f, .error f' t => f' = f ∧ f ≠ .endless ∧ t = s
  | _, _ => False

section Rules
variable {x : Except Fault α} {y : StoreM β} {R : α → β → Store → Prop}

theorem follows_ok {a : α} {b : β} (hy : y s = .ok b t) (h : R a b t) :
    Follows s (.ok a) y R := by
  unfold Follows
  rw [hy]
  exact h

theorem follows_error {f : Fault} (hy : y s = .error f s) (hf : f ≠ .endless) :
    Follows s (.error f) y R := by
  unfold Follows
  rw [hy]
  exact ⟨rfl,hf,rfl⟩

theorem follows_ask {S : α → β → Prop} {f : Store → Except Fault β} (hb : Both S x (f s))
    (h : ∀ a b, S a b → R a b s) : Follows s x (ask f) R := by
  cases hf : f s with
  | error e =>
    rw [hf] at hb
    cases hb with
    | error he => exact follows_error (ask_of_error hf) he
  | ok b =>
    rw [hf] at hb
    cases hb with
    | ok hR => exact follows_ok (ask_of_ok hf) (h _ _ hR)

/-- A check on both sides: if it fails, so does the edit, without having changed anything. -/
theorem follows_bind {S : α → γ → Prop} {z : Except Fault γ} {g : α → Except Fault δ}
    {Q : δ → β → Store → Prop} (hb : Both S x z) (hf : ∀ f, z = .error f → y s = .error f s)
    (h : ∀ a c, z = .ok c → S a c → Follows s (g a) y Q) : Follows s (x >>= g) y Q := by
  cases hb with
  | ok hS => exact h _ _ rfl hS
  | error he => exact follows_error (hf _ rfl) he

theorem follows_ask_bind {f : Store → Except Fault γ} {g : γ → StoreM β} {c : γ} (hf : f s = .ok c)
    (h : Follows s x (g c) R) : Follows s x (ask f >>= g) R := by
  unfold Follows at h ⊢
  rwa [bind_of_ok (ask_of_ok hf)]

theorem Follows.map_left {f : α → γ} {Q : γ → β → Store → Prop} (h : Follows s x y R)
    (hQ : ∀ a b t, R a b t → Q (f a) b t) : Follows s (x >>= fun a => pure (f a)) y Q := by
  unfold Follows at h
  split at h
  next hy => exact follows_ok hy (hQ _ _ _ h)
  next hy =>
    obtain ⟨rfl,hf,rfl⟩ := h
    exact follows_error hy hf
  next => exact h.elim

theorem Follows.map {g : β → γ} {Q : α → γ → Store → Prop} (h : Follows s x y R)
    (hQ : ∀ a b t, R a b t → Q a (g b) t) :
    Follows s x (y >>= fun b => pure (g b)) Q := by
  unfold Follows at h
  split at h
  next hy => exact follows_ok (by rw [bind_of_ok hy]; rfl) (hQ _ _ _ h)
  next hy =>
    obtain ⟨rfl,hf,rfl⟩ := h
    exact follows_error (by rw [bind_of_error hy]) hf
  next => exact h.elim

/-- The same with the result in another form. -/
theorem Follows.answers {g : β → γ} {Q : α → γ → Store → Prop}
    (h : Follows s x y fun a b t => Q a (g b) t) :
    Follows s x (y >>= fun b => pure (g b)) Q :=
  h.map fun _ _ _ hQ => hQ

end Rules

section Data
variable {f g : NodeId → NodeId → Except Fault Bool}

/-- Goes on with the rest if the first two were the same. -/
theorem Both.and {x y x' y' : Except Fault Bool} (h : Both (fun b c => c = b) x y)
    (h' : Both (fun b c => c = b) x' y') :
    Both (fun b c => c = b) (do if ← x then x' else return false)
      (do if ← y then y' else return false) := by
  refine h.bind fun b c hbc => ?_
  subst hbc
  cases c with
  | true => exact h'
  | false => exact .ok rfl

mutual
/-- Data are compared alike if the statements in them are. -/
theorem Argument.both_equalData : (a b : Argument) →
    (∀ m ∈ a.nodes, ∀ n ∈ b.nodes, Both (fun x y => y = x) (f m n) (g m n)) →
    Both (fun x y => y = x) (a.equalData f b) (a.equalData g b)
  | .statement m, b, h => by
    cases b with
    | statement n => exact h m (List.mem_singleton_self m) n (List.mem_singleton_self n)
    | _ => exact .ok rfl
  | .list xs, b, h => by
    cases b with
    | list ys =>
      unfold equalData
      split
      next => exact both_equalItems xs ys h
      next => exact .ok rfl
    | _ => exact .ok rfl
  | .mapping es, b, h => by
    cases b with
    | mapping fs =>
      unfold equalData
      split
      next => exact both_equalEntries es fs h
      next => exact .ok rfl
    | _ => exact .ok rfl
  | .nothing, _, _ | .bool _, _, _ | .int _, _, _ | .real _, _, _ | .text _, _, _ | .kind _, _, _
  | .condition _, _, _ => .ok rfl

theorem Argument.both_equalItems : (xs ys : List Argument) →
    (∀ m ∈ nodesOfItems xs, ∀ n ∈ nodesOfItems ys, Both (fun x y => y = x) (f m n) (g m n)) →
    Both (fun x y => y = x) (equalItems f xs ys) (equalItems g xs ys)
  | [], _, _ | _ :: _, [], _ => .ok rfl
  | x :: xs, y :: ys, h => by
    have hfirst := both_equalData x y fun m hm n hn =>
      h m (List.mem_append_left _ hm) n (List.mem_append_left _ hn)
    exact hfirst.and (both_equalItems xs ys fun m hm n hn =>
      h m (List.mem_append_right _ hm) n (List.mem_append_right _ hn))

theorem Argument.both_equalEntries : (es fs : List (String × Argument)) →
    (∀ m ∈ nodesOfEntries es, ∀ n ∈ nodesOfEntries fs, Both (fun x y => y = x) (f m n) (g m n)) →
    Both (fun x y => y = x) (equalEntries f es fs) (equalEntries g es fs)
  | [], _, _ => .ok rfl
  | (key,a) :: es, fs, h => by
    unfold equalEntries
    cases hb : fs.lookup key with
    | none => exact .ok rfl
    | some b =>
      have hmem : ∀ n ∈ b.nodes, n ∈ nodesOfEntries fs := by
        obtain ⟨before,after,rfl,_⟩ := List.lookup_eq_some_iff.mp hb
        intro n hn
        rw [nodesOfEntries_eq_flatMap]
        exact List.mem_flatMap.mpr ⟨(key,b),by simp,hn⟩
      have hfirst := both_equalData a b fun m hm n hn =>
        h m (List.mem_append_left _ hm) n (hmem n hn)
      exact hfirst.and (both_equalEntries es fs fun m hm n hn =>
        h m (List.mem_append_right _ hm) n hn)
end

end Data

/-- No statement can be a position, so its text plays no part. -/
theorem Argument.position_congr {f g : NodeId → Except Fault String} (a : Argument) (length : ℕ)
    (closed : Bool) : a.position f length closed = a.position g length closed := by
  cases a <;> rfl

theorem Argument.position_ne_endless {f : NodeId → Except Fault String} {length : ℕ}
    {closed : Bool} : a.position f length closed ≠ .error .endless := by
  intro h
  have hp := positioned f length closed a
  rw [h] at hp
  obtain _ | _ | he := hp
  exact he rfl

namespace Mirrors

theorem text (h : Mirrors s o) (hn : s.IsRoot n) : s.text n = o.text n :=
  text_of_tree? (h.holds n hn).tree?

theorem both_assembled (h : Mirrors s o) (hr : s.IsRoot r) :
    Both (fun t v => t = o r ∧ v = s.read r ∧ (o r).label.awaited? = none) (o r).assembled
      (s.assembled r) := by
  have hl := h.label hr
  cases ha : (o r).label.awaited? with
  | some k =>
    rw [Tree.assembled, ha, assembled_of_some (by rw [hl, ha])]
    exact .error nofun
  | none =>
    rw [Tree.assembled, ha, assembled_of_none (by rw [hl, ha])]
    exact .ok ⟨rfl,rfl,rfl⟩

theorem both_fields (h : Mirrors s o) (hr : s.IsRoot r) :
    Both (fun t c => t = o r ∧ c = s.cell r ∧ (o r).label.awaited? = none) (o r).assembled
      (s.fields r) := by
  rw [← bind_pure (o r).assembled]
  exact (h.both_assembled hr).bind fun _ _ ⟨ht,_,ha⟩ => .ok ⟨ht,rfl,ha⟩

theorem both_expect (h : Mirrors s o) (hr : s.IsRoot r) (k : Kind) :
    Both (fun t v => t = o r ∧ v = s.read r ∧ (o r).label.awaited? = none ∧ (o r).label.kind = k)
      ((o r).expect k) (s.expect k r) := by
  rw [expect_eq]
  refine (h.both_assembled hr).bind fun t v ⟨ht,hv,ha⟩ => ?_
  rw [ht, hv, h.label hr]
  split
  next hk => exact .ok ⟨rfl,rfl,ha,hk⟩
  next => exact .error nofun

theorem both_ready (h : Mirrors s o) (hr : s.IsRoot r) :
    Both (fun _ _ => True) ((o r).ready k) (s.ready k r) := by
  unfold Tree.ready
  rw [ready_eq, h.label hr]
  cases (o r).label.awaited? with
  | none => exact .ok trivial
  | some j =>
    by_cases hj : j = k
    · simp only [if_pos hj]
      exact .ok trivial
    · simp only [if_neg hj]
      exact .error nofun

theorem both_given (h : Mirrors s o) (hr : s.IsRoot r)
    (ha : ∀ n ∈ a.node?, n ∈ s ∧ s.IsRoot n ∧ n ≠ r) :
    Both (fun m n => n = m ∧ a = .statement m ∧ Statement.Free s r m) (o.given a)
      (s.insertable r a) := by
  cases a with
  | statement n =>
    obtain ⟨hn,hroot,hne⟩ := ha n rfl
    simp only [Store.insertable, if_neg hne]
    refine (h.both_assembled hroot).bind fun t v hv => ?_
    obtain ⟨_,_,hp⟩ := hv
    have hb : ¬ s.Below n r := hr.not_below
    rw [h.sound.reaches_eq_false h.acyclic hb]
    exact .ok ⟨rfl,rfl,⟨hn,hne,by rw [h.label hroot, hp],hb⟩⟩
  | _ => exact .error (by simp)

theorem both_vacant (h : Mirrors s o) (ha : ∀ n ∈ a.node?, s.IsRoot n) :
    Both (fun m n => n = m ∧ a = .statement m ∧ s.read m = {}) (o.vacant a) (s.emptyOutput a) := by
  cases a with
  | statement n =>
    have hroot := ha n rfl
    rw [emptyOutput_eq]
    refine (h.both_assembled hroot).bind fun t v ⟨ht,hv,_⟩ => ?_
    rw [ht, hv]
    have hiff : o n = .block [] ↔ s.read n = {} := by
      constructor
      · intro e
        have hl := h.label hroot
        have hp := h.parts hroot
        rw [e] at hl hp
        cases hread : s.read n with
        | mk l cs =>
          rw [hread] at hl hp
          obtain rfl : l = .block := hl
          obtain rfl : cs = [] := List.forall₂_nil_right_iff.mp hp
          rfl
      · intro e
        exact (h.holds n hroot).unique (holds_of_empty e)
    by_cases e : s.read n = {}
    · rw [if_pos (hiff.mpr e), if_pos e]
      exact .ok ⟨rfl,rfl,e⟩
    · rw [if_neg (fun e' => e (hiff.mp e')), if_neg e]
      exact .error nofun
  | _ => exact .error nofun

theorem both_position (s : Store) (o : Orchard) (a : Argument) (length : ℕ) (closed : Bool) :
    Both (fun i j => j = i ∧ a.position o.text length closed = .ok i)
      (a.position o.text length closed) (a.position s.text length closed) :=
  both_of_eq (a.position_congr length closed) Argument.position_ne_endless

theorem both_shown (h : Mirrors s o) (ha : ∀ n ∈ a.nodes, s.IsRoot n) :
    Both (fun x y => y = x) (a.shown o.text) (a.shown s.text) := by
  obtain ⟨x,hx⟩ := Argument.exists_shown fun n _ => h.acyclic.not_circular n
  rw [← a.shown_congr fun n hn => h.text (ha n hn), hx]
  exact .ok rfl

theorem both_testOf (h : Mirrors s o) (ha : ∀ n ∈ a.nodes, s.IsRoot n) :
    Both (fun c d => d = c ∧ a = .condition c) (Statement.testOf o.text a)
      (Statement.testOf s.text a) := by
  cases a with
  | condition c => exact .ok ⟨rfl,rfl⟩
  | _ => exact (h.both_shown ha).bind fun _ _ hxy => hxy ▸ .error nofun

end Mirrors
end RobotCode
