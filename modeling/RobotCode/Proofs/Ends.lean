import Mathlib.Data.List.Forall2
import Mathlib.Order.Defs.Unbundled
import RobotCode.Store.Edit

/-! # How operations end

An operation leaves a store also when it fails. What is said here of the store it leaves is said of
both ends; only of a success is anything said about the result.
-/
namespace RobotCode
open List (Forall₂)
variable {R : Store → Store → Prop} {σ α β : Type} {view : σ → Store}

/-- However `x` ends, the store it leaves stands in `R` to the one at the outset, and a result
satisfies `Q`. -/
def Ends (R : Store → Store → Prop) (view : σ → Store) (x : EStateM Fault σ α) (i : σ)
    (Q : α → σ → Prop) : Prop :=
  match x i with
  | .ok a j => R (view i) (view j) ∧ Q a j
  | .error _ j => R (view i) (view j)

variable {x : EStateM Fault σ α} {f : α → EStateM Fault σ β} {i j : σ} {Q : α → σ → Prop}
  {P : β → σ → Prop} {a : α} {e : Fault}

theorem Ends.of_ok (h : Ends R view x i Q) (hx : x i = .ok a j) : R (view i) (view j) ∧ Q a j := by
  unfold Ends at h
  rwa [hx] at h

theorem Ends.of_error (h : Ends R view x i Q) (hx : x i = .error e j) : R (view i) (view j) := by
  unfold Ends at h
  rwa [hx] at h

theorem ends_pure (hi : R (view i) (view i)) (h : Q a i) : Ends R view (pure a) i Q := ⟨hi,h⟩

theorem ends_throw (hi : R (view i) (view i)) : Ends R view (throw e) i Q := hi

theorem ends_mono {Q' : α → σ → Prop} (hx : Ends R view x i Q)
    (h : ∀ a j, R (view i) (view j) → Q a j → Q' a j) : Ends R view x i Q' := by
  unfold Ends at hx ⊢
  split at hx
  next => exact ⟨hx.1,h _ _ hx.1 hx.2⟩
  next => exact hx

variable [IsTrans Store R]

theorem ends_bind (hx : Ends R view x i Q)
    (hf : ∀ a j, R (view i) (view j) → Q a j → Ends R view (f a) j P) :
    Ends R view (x >>= f) i P := by
  unfold Ends
  cases h : x i with
  | error e j =>
    simp only [bind, EStateM.bind, h]
    exact hx.of_error h
  | ok a j =>
    obtain ⟨hj,ha⟩ := hx.of_ok h
    have hk := hf a j hj ha
    simp only [bind, EStateM.bind, h]
    cases hr : f a j with
    | error e k => exact IsTrans.trans _ _ _ hj (hk.of_error hr)
    | ok b k => exact ⟨IsTrans.trans _ _ _ hj (hk.of_ok hr).1,(hk.of_ok hr).2⟩

/-- A loop may end at every store that it comes to, so each has to stand in `R` to itself. -/
theorem ends_mapM {xs : List α} {P : α → β → σ → Prop} (hi : R (view i) (view i))
    (hR : ∀ {s t}, R s t → R t t)
    (hf : ∀ a ∈ xs, ∀ j, R (view i) (view j) → Ends R view (f a) j (P a))
    (hP : ∀ a b j k, P a b j → R (view j) (view k) → P a b k) :
    Ends R view (xs.mapM f) i fun bs j => Forall₂ (P · · j) xs bs := by
  induction xs generalizing i with
  | nil => exact ends_pure hi .nil
  | cons a xs ih =>
    rw [List.mapM_cons]
    refine ends_bind (hf a (List.mem_cons_self ..) i hi) fun b j hj hb => ?_
    have hrest := ih (hR hj) fun c hc k hk =>
      hf c (List.mem_cons_of_mem _ hc) k (IsTrans.trans _ _ _ hj hk)
    refine ends_bind hrest fun bs k hk hbs => ends_pure (hR hk) ?_
    exact .cons (hP a b j k hb hk) hbs

theorem ends_forM {xs : List α} {f : α → EStateM Fault σ PUnit} {P : α → Prop}
    (hi : R (view i) (view i)) (hR : ∀ {s t}, R s t → R t t)
    (hf : ∀ a ∈ xs, ∀ j, R (view i) (view j) → Ends R view (f a) j fun _ _ => P a) :
    Ends R view (xs.forM f) i fun _ _ => ∀ a ∈ xs, P a := by
  rw [List.forM_eq_forM]
  induction xs generalizing i with
  | nil => exact ends_pure hi (by simp)
  | cons a xs ih =>
    rw [List.forM_cons]
    refine ends_bind (hf a (List.mem_cons_self ..) i hi) fun _ j hj ha => ?_
    have hrest := ih (hR hj) fun b hb k hk =>
      hf b (List.mem_cons_of_mem _ hb) k (IsTrans.trans _ _ _ hj hk)
    exact ends_mono hrest fun _ _ _ hall => List.forall_mem_cons.mpr ⟨ha,hall⟩

theorem ends_foldlM {xs : List α} {f : β → α → EStateM Fault σ β} {b : β}
    (hi : R (view i) (view i)) (hR : ∀ {s t}, R s t → R t t)
    (hf : ∀ a ∈ xs, ∀ b j, R (view i) (view j) → Ends R view (f b a) j fun _ _ => True) :
    Ends R view (xs.foldlM f b) i fun _ _ => True := by
  induction xs generalizing i b with
  | nil => exact ends_pure hi trivial
  | cons a xs ih =>
    rw [List.foldlM_cons]
    refine ends_bind (hf a (List.mem_cons_self ..) b i hi) fun c j hj _ => ?_
    exact ih (hR hj) fun d hd e k hk =>
      hf d (List.mem_cons_of_mem _ hd) e k (IsTrans.trans _ _ _ hj hk)

end RobotCode
