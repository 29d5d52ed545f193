import RobotCode.Proofs.Halt
import RobotCode.Proofs.Orders
import RobotCode.Proofs.Profiles

/-! # What a profile tells

A profile has one entry for each primitive that is called, in the order in which a walk from the top
down and from left to right comes to them, with the number of nodes that call it. All entries
together are as many calls as are counted, and the count does not change the profile.
-/
namespace RobotCode
open Store
variable {s : Store} {m n : NodeId} {w : Tree} {f : Profile} {p q : Primitive}
  {ps : List Primitive}

/-- Whatever comes first among the results comes from what is met first. -/
theorem findIdx_lt_of_idxOf_lt {α β : Type} [DecidableEq β] {g : α → Option β} {xs : List α}
    {a b : β} (h : (xs.filterMap g).idxOf a < (xs.filterMap g).idxOf b) :
    xs.findIdx (fun x => g x = some a) < xs.findIdx fun x => g x = some b := by
  induction xs with
  | nil => simp at h
  | cons x xs ih =>
    rw [List.findIdx_cons, List.findIdx_cons]
    cases hx : g x with
    | none =>
      rw [List.filterMap_cons_none hx] at h
      simpa using ih h
    | some c =>
      rw [List.filterMap_cons_some hx, List.idxOf_cons, List.idxOf_cons] at h
      by_cases hb : c = b
      · simp [hb] at h
      · by_cases ha : c = a
        · simp [ha, ha ▸ hb]
        · simp only [beq_eq_false_iff_ne.mpr ha, beq_eq_false_iff_ne.mpr hb, cond_false] at h
          simpa [ha, hb] using ih (by omega)

namespace Profile

def keys (f : Profile) : List Primitive := f.map Prod.fst

/-- The sum of all entries. -/
def total (f : Profile) : ℕ := (f.map Prod.snd).sum

theorem keys_tick (f : Profile) (p : Primitive) :
    (f.tick p).keys = if p ∈ f.keys then f.keys else f.keys ++ [p] := by
  induction f with
  | nil => rfl
  | cons e f ih =>
    obtain ⟨q,k⟩ := e
    by_cases hq : q = p
    · simp [tick, keys, hq]
    · have hmem : p ∈ keys ((q,k) :: f) ↔ p ∈ keys f := by simp [keys, Ne.symm hq]
      have hkeys : keys (tick ((q,k) :: f) p) = q :: keys (tick f p) := by simp [tick, keys, hq]
      rw [hkeys, ih]
      by_cases hp : p ∈ keys f
      · rw [if_pos hp, if_pos (hmem.mpr hp)]
        rfl
      · rw [if_neg hp, if_neg (hmem.not.mpr hp)]
        rfl

theorem total_tick (f : Profile) (p : Primitive) : (f.tick p).total = f.total + 1 := by
  induction f with
  | nil => rfl
  | cons e f ih =>
    obtain ⟨q,k⟩ := e
    simp only [total] at ih
    by_cases hq : q = p <;> simp [tick, total, hq, ih] <;> omega

/-- With no key twice, an entry is what is found under its key. -/
theorem count_of_mem {k : ℕ} (hd : f.keys.Nodup) (h : (p,k) ∈ f) : f.count p = k := by
  induction f with
  | nil => cases h
  | cons e f ih =>
    obtain ⟨q,j⟩ := e
    obtain ⟨hq,hd⟩ := List.nodup_cons.mp hd
    rcases List.mem_cons.mp h with h | h
    · cases h
      exact if_pos rfl
    · have hne : q ≠ p := by
        rintro rfl
        exact hq (List.mem_map.mpr ⟨(q,k),h,rfl⟩)
      rw [count, if_neg hne, ih hd h]

theorem ofPrimitives_concat (ps : List Primitive) (p : Primitive) :
    ofPrimitives (ps ++ [p]) = (ofPrimitives ps).tick p := by
  rw [ofPrimitives, List.foldl_append]
  rfl

theorem mem_keys_ofPrimitives : q ∈ (ofPrimitives ps).keys ↔ q ∈ ps := by
  induction ps using List.reverseRecOn with
  | nil => rfl
  | append_singleton ps p ih =>
    rw [ofPrimitives_concat, keys_tick, List.mem_append, List.mem_singleton, ← ih]
    split
    next hp =>
      refine ⟨Or.inl,fun h => ?_⟩
      rcases h with h | rfl
      · exact h
      · exact hp
    next => rw [List.mem_append, List.mem_singleton]

/-- The keys come in the order in which the primitives are first called. -/
theorem pairwise_keys_ofPrimitives (ps : List Primitive) :
    (ofPrimitives ps).keys.Pairwise fun p q => ps.idxOf p < ps.idxOf q := by
  induction ps using List.reverseRecOn with
  | nil => exact .nil
  | append_singleton ps p ih =>
    have hold : ∀ q ∈ (ofPrimitives ps).keys, (ps ++ [p]).idxOf q = ps.idxOf q := fun q hq =>
      List.idxOf_append_of_mem (mem_keys_ofPrimitives.mp hq)
    have hkeep : (ofPrimitives ps).keys.Pairwise
        fun q r => (ps ++ [p]).idxOf q < (ps ++ [p]).idxOf r :=
      ih.imp_of_mem fun hq hr h => by rwa [hold _ hq, hold _ hr]
    rw [ofPrimitives_concat, keys_tick]
    split
    next => exact hkeep
    next hp =>
      have hnew : p ∉ ps := mem_keys_ofPrimitives.not.mp hp
      refine List.pairwise_append.mpr ⟨hkeep,List.pairwise_singleton ..,fun q hq r hr => ?_⟩
      obtain rfl := List.mem_singleton.mp hr
      rw [hold q hq, List.idxOf_append_of_notMem hnew]
      have hlt := List.idxOf_lt_length_iff.mpr (mem_keys_ofPrimitives.mp hq)
      omega

theorem nodup_keys_ofPrimitives (ps : List Primitive) : (ofPrimitives ps).keys.Nodup :=
  (pairwise_keys_ofPrimitives ps).imp fun h => by
    rintro rfl
    exact lt_irrefl _ h

theorem total_ofPrimitives (ps : List Primitive) : (ofPrimitives ps).total = ps.length := by
  induction ps using List.reverseRecOn with
  | nil => rfl
  | append_singleton ps p ih => rw [ofPrimitives_concat, total_tick, ih, List.length_append]; rfl

theorem of_mem_ofPrimitives {k : ℕ} (h : (p,k) ∈ ofPrimitives ps) : k = ps.count p := by
  rw [← count_of_mem (nodup_keys_ofPrimitives ps) h, ofPrimitives, count_foldl_tick]
  exact Nat.zero_add _

theorem sum_vector_ofPrimitives (ps : List Primitive) :
    (ofPrimitives ps).vector.sum = ps.length := by
  rw [vector_ofPrimitives]
  induction ps with
  | nil => rfl
  | cons p ps ih =>
    have hone : (Primitive.all.map fun q => if p == q then 1 else 0).sum = 1 := by
      cases p <;> rfl
    simp only [List.count_cons]
    rw [List.sum_map_add, ih, hone]
    rfl

end Profile

/-- The primitive that a label by itself calls. -/
def Label.primitive? : Label → Option Primitive
  | .call name => Primitive.ofName? name
  | _ => none

theorem Label.toList_primitive? (l : Label) : l.primitive?.toList = l.primitives := by
  cases l <;> rfl

namespace Store

/-- The node is a call to the primitive `p`. -/
def Calls (s : Store) (m : NodeId) (p : Primitive) : Prop := (s.read m).label = .call p.name

instance (s : Store) (m : NodeId) (p : Primitive) : Decidable (s.Calls m p) :=
  inferInstanceAs (Decidable ((s.read m).label = .call p.name))

theorem primitive?_eq_some_iff : (s.read m).label.primitive? = some p ↔ s.Calls m p := by
  unfold Calls
  cases (s.read m).label with
  | call name =>
    rw [Label.primitive?, Primitive.ofName?_eq_some_iff, Label.call.injEq]
    exact eq_comm
  | _ => simp [Label.primitive?]

/-- The number of nodes below, or at, `n` that call `p`. -/
def occurrences (s : Store) (n : NodeId) (p : Primitive) : ℕ :=
  (s.preorder n).countP fun m => s.Calls m p

/-- The place of the first node in preorder that calls `p`. -/
def firstCall (s : Store) (n : NodeId) (p : Primitive) : ℕ :=
  (s.preorder n).findIdx fun m => s.Calls m p

/-- The primitives called in a value are met in preorder. -/
theorem Sound.filterMap_preorder (hs : s.Sound) (hw : s.tree? n = some w) :
    (s.preorder n).filterMap (fun m => (s.read m).label.primitive?) = w.primitives := by
  rw [List.filterMap_eq_flatMap_toList, ← hs.flatMap_family hw]
  simp only [Label.toList_primitive?, preorder]

theorem Sound.count_primitives (hs : s.Sound) (hw : s.tree? n = some w) (p : Primitive) :
    w.primitives.count p = s.occurrences n p := by
  rw [← hs.filterMap_preorder hw, List.count_filterMap]
  refine List.countP_congr fun m _ => ?_
  simp [primitive?_eq_some_iff]

theorem Sound.firstCall_lt (hs : s.Sound) (hw : s.tree? n = some w)
    (h : w.primitives.idxOf p < w.primitives.idxOf q) : s.firstCall n p < s.firstCall n q := by
  rw [← hs.filterMap_preorder hw] at h
  have hlt := findIdx_lt_of_idxOf_lt h
  simp only [primitive?_eq_some_iff] at hlt
  exact hlt

theorem Sound.mem_primitives (hs : s.Sound) (hw : s.tree? n = some w) :
    p ∈ w.primitives ↔ ∃ m, s.Within n m ∧ s.Calls m p := by
  simp only [← hs.filterMap_preorder hw, List.mem_filterMap, primitive?_eq_some_iff,
    mem_preorder hw]

/-- `f` has the primitives called in `n` for keys, each once and in the order in which they are
first called, with the numbers of their calls. -/
structure Profiled (s : Store) (n : NodeId) (f : Profile) : Prop where
  mem_keys : ∀ p, p ∈ f.keys ↔ ∃ m, s.Within n m ∧ s.Calls m p
  nodup : f.keys.Nodup
  in_order : f.keys.Pairwise fun p q => s.firstCall n p < s.firstCall n q
  entries : ∀ p k, (p,k) ∈ f → k = s.occurrences n p ∧ 1 ≤ k

theorem Sound.profiled (hs : s.Sound) (hw : s.tree? n = some w) :
    s.Profiled n (Profile.ofPrimitives w.primitives) where
  mem_keys p := Profile.mem_keys_ofPrimitives.trans (hs.mem_primitives hw)
  nodup := Profile.nodup_keys_ofPrimitives w.primitives
  in_order := (Profile.pairwise_keys_ofPrimitives w.primitives).imp fun h => hs.firstCall_lt hw h
  entries p k h := by
    have hk := Profile.of_mem_ofPrimitives h
    have hmem : p ∈ w.primitives :=
      Profile.mem_keys_ofPrimitives.mp (List.mem_map.mpr ⟨(p,k),h,rfl⟩)
    exact ⟨hk.trans (hs.count_primitives hw p),hk ▸ List.count_pos_iff.mpr hmem⟩

end Store

open StoreM

/-- In a forest, the profile of a statement in which nothing is taken apart has one entry for each
primitive called there, in the order of the first calls, with the number of its calls. The vector
has the same numbers for all primitives in their fixed order, nought for those not called. Both add
up to the count, and are the same afterwards. -/
theorem profile_adds_up {allowed : Store → Command → Prop} (h : Reachable allowed s)
    (hf : s.Forest) (hn : n ∈ s) (hi : s.Intact n) :
    ∃ (f : Profile) (v : List ℕ) (k : ℕ) (t : Store),
      (Command.profile (.statement n)).run s = .ok (.profile f) s ∧ s.Profiled n f ∧
      (Command.vector (.statement n)).run s = .ok (.vector v) s ∧
      v = Primitive.all.map (s.occurrences n) ∧ (∀ p, p ∉ f.keys → s.occurrences n p = 0) ∧
      (Command.count (.statement n)).run s = .ok (.number k) t ∧ f.total = k ∧ v.sum = k ∧
      (Command.profile (.statement n)).run t = .ok (.profile f) t ∧
      (Command.vector (.statement n)).run t = .ok (.vector v) t := by
  have hs := h.sound
  have ha := hf.acyclic
  obtain ⟨w,hw⟩ := exists_tree? ha n
  have hholds := holds_of_tree? hw
  have hp := (hs.intact_iff hholds).mp hi
  obtain ⟨t,ht,hre⟩ := Tally.count_of_holds hs ha hn hholds hp
  have hprofile : ∀ {u : Store}, u.Sound → u.Acyclic → u.Holds n w →
      Profile.of (.statement n) u = .ok (Profile.ofPrimitives w.primitives) u := by
    intro u hu hua huw
    refine ask_of_ok ((hu.profile_eq huw).trans ?_)
    rw [Tree.inFull, hp]
  have hbefore := hprofile hs ha hholds
  have hafter := hprofile (hre.edits.sound hs) (hre.edits.acyclic ha) hre.holds
  have hprofiled := hs.profiled hw
  refine ⟨_,_,w.primitives.length,t,bind_of_ok hbefore,hprofiled,bind_of_ok hbefore,?_,
    fun p hnot => ?_,bind_of_ok ht,Profile.total_ofPrimitives _,Profile.sum_vector_ofPrimitives _,
    bind_of_ok hafter,bind_of_ok hafter⟩
  · rw [Profile.vector_ofPrimitives]
    exact List.map_congr_left fun p _ => hs.count_primitives hw p
  · rw [← hs.count_primitives hw, List.count_eq_zero]
    exact Profile.mem_keys_ofPrimitives.not.mp hnot

/-- A call, and a choice between another one and the same again. -/
def repeated : Store :=
  ⟨#[{},{},{},{},.call "move",.call "skip",.block [⟨7⟩,⟨8⟩],.call "skip",
    .guarded .ifElse .always [⟨4⟩,⟨5⟩]]⟩

theorem profile_adds_up_repeated :
    (Command.profile (.statement ⟨6⟩)).run repeated =
      .ok (.profile [(.skip,2),(.move,1)]) repeated ∧
    ∃ (f : Profile) (v : List ℕ) (k : ℕ) (t : Store),
      (Command.profile (.statement ⟨6⟩)).run repeated = .ok (.profile f) repeated ∧
      repeated.Profiled ⟨6⟩ f ∧
      (Command.vector (.statement ⟨6⟩)).run repeated = .ok (.vector v) repeated ∧
      v = Primitive.all.map (repeated.occurrences ⟨6⟩) ∧
      (∀ p, p ∉ f.keys → repeated.occurrences ⟨6⟩ p = 0) ∧
      (Command.count (.statement ⟨6⟩)).run repeated = .ok (.number k) t ∧ f.total = k ∧ v.sum = k ∧
      (Command.profile (.statement ⟨6⟩)).run t = .ok (.profile f) t ∧
      (Command.vector (.statement ⟨6⟩)).run t = .ok (.vector v) t := by
  have h : Reachable (fun s c => c.Tame s) repeated :=
    .step (c := .build (.block [.call (.text "skip"),.ifElse (.condition .always)
      (.call (.text "move")) (.call (.text "skip"))])) .start (by decide) trivial rfl
  have hvalue : repeated.tree? ⟨6⟩ = some (.block [.call "skip",
    .guarded .ifElse .always [.call "move",.call "skip"]]) := rfl
  have hintact := (h.sound.intact_iff (holds_of_tree? hvalue)).mpr rfl
  exact ⟨rfl,profile_adds_up h (h.sound.forest h.acyclic) (by decide) hintact⟩

end RobotCode
