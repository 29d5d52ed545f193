import RobotCode.Metrics.Table
import RobotCode.Proofs.Steps
import RobotCode.Tally.Rebuild

/-! # Counting as a run of edits

Counting takes a statement apart into new blocks, which nothing lies above, so all its steps are
tame. This holds also when it stops at a node that somebody else has taken apart.
-/
namespace RobotCode
open Relation Store
variable {tame : Prop} {s t : Store} {r n : NodeId} {a : Argument} {i : Progress} {g : Guarded}

namespace TallyM
variable {α : Type} {Q : α → Store → Prop}

theorem leads_edit {x : StoreM α} (h : Leads tame id x i.store Q) :
    Leads tame Progress.store (edit x) i fun a j => Q a j.store := by
  simp only [Leads, edit] at h ⊢
  cases hx : x i.store with
  | ok a t =>
    rw [hx] at h
    exact h
  | error e t =>
    rw [hx] at h
    exact h

theorem leads_record {t : Subtotal} :
    Leads tame Progress.store (record t) i fun _ _ => True := ⟨.refl,trivial⟩

/-- A list of new blocks, made one after another. -/
theorem exists_creates (k : ℕ) (i : Progress) : ∃ outs t,
    ((List.replicate k ()).mapM fun _ => edit Statement.create) i = .ok outs ⟨t,i.records⟩ ∧
    outs.length = k ∧ outs.Nodup ∧ (∀ o ∈ outs, o ∉ i.store ∧ o ∈ t) ∧
    (∀ m, t.read m = i.store.read m) ∧ ∀ tame, Edits tame i.store t := by
  induction k generalizing i with
  | zero => exact ⟨[],i.store,rfl,rfl,List.nodup_nil,by simp,fun _ => rfl,fun _ => .refl⟩
  | succ k ih =>
    obtain ⟨outs,t,he,hl,hd,ho,hread,ht⟩ := ih ⟨i.store.push {},i.records⟩
    have hin : i.store.next ∈ i.store.push {} := i.store.next_mem_push
    refine ⟨i.store.next :: outs,t,?_,by rw [List.length_cons, hl],?_,?_,?_,?_⟩
    · rw [List.replicate_succ, List.mapM_cons]
      have hfirst : edit Statement.create i = .ok i.store.next ⟨i.store.push {},i.records⟩ := rfl
      simp only [bind, EStateM.bind, hfirst, he, pure, EStateM.pure]
    · exact List.nodup_cons.mpr ⟨fun h => (ho _ h).1 hin,hd⟩
    · intro o hm
      rcases List.mem_cons.mp hm with rfl | hm
      · exact ⟨i.store.next_not_mem,(ht True).mem hin⟩
      · exact ⟨fun h => (ho o hm).1 (mem_push.mpr (Or.inl h)),(ho o hm).2⟩
    · intro m
      rw [hread m, read_push_empty]
    · exact fun tame => (ReflTransGen.single (.alloc i.store)).trans (ht tame)

end TallyM

namespace Tally
open TallyM Statement StoreM

theorem leads_blockCalls {count : NodeId → TallyM ℕ}
    (hc : ∀ n (j : Progress), j.store.Sound → (tame → j.store.Loopless) → n ∈ j.store →
      Leads tame Progress.store (count n) j fun _ _ => True)
    (hs : i.store.Sound) (hl : tame → i.store.Loopless) (hr : r ∈ i.store) :
    Leads tame Progress.store (blockCalls count r) i fun _ _ => True := by
  unfold blockCalls
  have hlength : Leads tame id (length r) i.store fun _ _ => True :=
    leads_ask_bind fun _ _ => leads_pure trivial
  refine leads_bind (leads_edit hlength) fun _ j hj _ => leads_foldlM fun _ _ _ k hk => ?_
  have hik := hj.trans hk
  refine leads_bind (leads_edit (leads_remove (hik.sound hs) (hik.mem hr))) fun c l hkl hcl => ?_
  have hil := hik.trans hkl
  refine leads_bind (hc c l (hil.sound hs) (hil.loopless hl) hcl) fun _ m hm _ => ?_
  have him := hil.trans hm
  refine leads_bind (leads_edit (leads_add (him.sound hs) (him.mem hr) ?_)) fun _ _ _ _ =>
    leads_pure trivial
  exact Argument.known_statement (hm.mem hcl)

/-- Nothing lies above new blocks. -/
theorem outputsClear_of_fresh {outs : List NodeId} (hs : s.Sound)
    (hread : ∀ m, t.read m = s.read m) (ho : ∀ o ∈ outs, o ∉ s) :
    OutputsClear t r (outs.map .statement) := by
  intro n hn b _ hb
  obtain ⟨o,hm,e⟩ := List.mem_map.mp hn
  obtain ⟨c,_,hc⟩ := below_iff_tail.mp hb
  rw [Child, hread] at hc
  rw [Argument.statement.injEq] at e
  exact ho o hm (hs.mem_of_child (e ▸ hc))

theorem leads_guardedCalls {count : NodeId → TallyM ℕ}
    (hc : ∀ n (j : Progress), j.store.Sound → (tame → j.store.Loopless) → n ∈ j.store →
      Leads tame Progress.store (count n) j fun _ _ => True)
    (hs : i.store.Sound) (hl : tame → i.store.Loopless) (hr : r ∈ i.store) :
    Leads tame Progress.store (guardedCalls count g r) i fun _ _ => True := by
  obtain ⟨outs,t,he,hl',_,ho,hread,ht⟩ := exists_creates g.arity i
  unfold guardedCalls
  have hcreate : Leads tame Progress.store
      ((List.replicate g.arity ()).mapM fun _ => edit create) i
      fun os j => os = outs ∧ j.store = t := by
    rw [Leads, he]
    exact ⟨ht tame,rfl,rfl⟩
  refine leads_bind hcreate fun os j hj hends => ?_
  obtain ⟨rfl,rfl⟩ := hends
  have hknown : ∀ a ∈ os.map Argument.statement, a.Known j.store := by
    intro a ha
    obtain ⟨o,hm,rfl⟩ := List.mem_map.mp ha
    exact Argument.known_statement (ho o hm).2
  have hclear := outputsClear_of_fresh (r := r) hs hread fun o hm => (ho o hm).1
  have hdis : Leads tame id (disassemble g r (os.map .statement)) j.store fun _ _ => True :=
    leads_disassemble (hj.sound hs) (hj.mem hr) hknown (fun _ => hclear)
      fun h => hj.loopless hl h r
  refine leads_bind (leads_edit hdis) fun test k hk _ => ?_
  have hcounts : Leads tame Progress.store
      (os.foldlM (fun total out => do return total + (← count out)) 0) k fun _ _ => True := by
    apply leads_foldlM
    intro o hm b l hkl
    have hjl := hk.trans hkl
    have hil := hj.trans hjl
    have hol : o ∈ l.store := hjl.mem (ho o hm).2
    exact leads_bind (hc o l (hil.sound hs) (hil.loopless hl) hol) fun _ _ _ _ => leads_pure trivial
  refine leads_bind hcounts fun _ l hkl _ => ?_
  have hjl := hk.trans hkl
  have hil := hj.trans hjl
  have hlen : (os.map Argument.statement).length = g.arity := by rw [List.length_map, hl']
  have hknown : ∀ a ∈ os.map Argument.statement, a.Known l.store := fun a ha =>
    (hknown a ha).edits hjl
  have hasm : Leads tame id (assemble g r (.condition test) (os.map .statement)) l.store
      fun _ _ => True := leads_assemble (hil.sound hs) (hil.mem hr) hknown hlen
  exact leads_bind (leads_edit hasm) fun _ _ _ _ => leads_pure trivial

theorem leads_callCalls (hr : r ∈ i.store) (hs : i.store.Sound) :
    Leads tame Progress.store (callCalls r) i fun _ _ => True := by
  unfold callCalls
  refine leads_bind (leads_edit (leads_disassembleCall hs hr)) fun name j hj _ => ?_
  refine leads_bind (leads_edit (leads_assembleCall (hj.mem hr))) fun _ _ _ _ => ?_
  exact leads_pure trivial

/-- The count of a node of a known kind. -/
def kindCalls (count : NodeId → TallyM ℕ) : Kind → NodeId → TallyM ℕ
  | .block => blockCalls count
  | .ifThen => guardedCalls count .ifThen
  | .ifElse => guardedCalls count .ifElse
  | .whileDo => guardedCalls count .whileDo
  | .call => callCalls

theorem rebuildWithin_succ (d : ℕ) (r : NodeId) : rebuildWithin (d + 1) r = do
    let k ← edit (kind r)
    let calls ← kindCalls (rebuildWithin d) k r
    record ⟨k,calls⟩
    return calls := by
  unfold rebuildWithin
  congr 1
  funext k
  cases k <;> rfl

theorem leads_rebuildWithin {d : ℕ} (hs : i.store.Sound) (hl : tame → i.store.Loopless)
    (hr : r ∈ i.store) : Leads tame Progress.store (rebuildWithin d r) i fun _ _ => True := by
  induction d generalizing i r with
  | zero => exact leads_throw
  | succ d ih =>
    rw [rebuildWithin_succ]
    have hkind : Leads tame id (kind r) i.store fun _ _ => True :=
      leads_ask_bind fun _ _ => leads_pure trivial
    have hc : ∀ n (j : Progress), j.store.Sound → (tame → j.store.Loopless) → n ∈ j.store →
        Leads tame Progress.store (rebuildWithin d n) j fun _ _ => True :=
      fun n j hj hlj hn => ih hj hlj hn
    refine leads_bind (leads_edit hkind) fun k j hj _ => ?_
    have hsj := hj.sound hs
    have hlj := hj.loopless hl
    have hrj := hj.mem hr
    have hcalls : Leads tame Progress.store (kindCalls (rebuildWithin d) k r) j
        fun _ _ => True := by
      cases k with
      | block => exact leads_blockCalls hc hsj hlj hrj
      | ifThen => exact leads_guardedCalls hc hsj hlj hrj
      | ifElse => exact leads_guardedCalls hc hsj hlj hrj
      | whileDo => exact leads_guardedCalls hc hsj hlj hrj
      | call => exact leads_callCalls hrj hsj
    refine leads_bind hcalls fun calls _ _ _ => ?_
    exact leads_bind leads_record fun _ _ _ _ => leads_pure trivial

theorem leads_rebuild (hs : i.store.Sound) (hl : tame → i.store.Loopless) (hr : r ∈ i.store) :
    Leads tame Progress.store (rebuild r) i fun _ _ => True := by
  unfold rebuild
  refine leads_bind (leads_edit (Q := fun _ _ => True) (leads_ask fun _ _ => trivial)) ?_
  intro depth j hj _
  exact leads_rebuildWithin (hj.sound hs) (hj.loopless hl) (hj.mem hr)

theorem leads_count (hs : s.Sound) (hl : tame → s.Loopless) (ha : a.Known s) :
    Leads tame id (count a) s fun _ _ => True := by
  unfold Leads count countLogged
  cases a with
  | statement r =>
    have hr : Leads tame Progress.store (rebuild r) ⟨s,[]⟩ fun _ _ => True :=
      leads_rebuild hs hl (ha r rfl)
    unfold Leads at hr
    simp only [Argument.toStatement]
    cases h : rebuild r ⟨s,[]⟩ with
    | ok calls j =>
      rw [h] at hr
      exact hr
    | error e j =>
      rw [h] at hr
      exact hr
  | _ => exact ReflTransGen.refl

end Tally

namespace StoreM

theorem leads_ask_true {α : Type} {f : Store → Except Fault α} :
    Leads tame id (ask f) s fun _ _ => True := leads_ask fun _ _ => trivial

end StoreM

theorem leads_density (hs : s.Sound) (hl : tame → s.Loopless) (ha : a.Known s) :
    Leads tame id (Density.of a) s fun _ _ => True := by
  unfold Density.of Statement.size
  refine StoreM.leads_ask_bind fun r _ => StoreM.leads_ask_bind fun nodes _ => ?_
  exact leads_bind (Tally.leads_count hs hl ha) fun _ _ _ _ => leads_pure trivial

theorem leads_row (hs : s.Sound) (hl : tame → s.Loopless) (name : String) (ha : a.Known s) :
    Leads tame id (Row.of name a) s fun _ _ => True := by
  unfold Row.of Profile.of
  refine StoreM.leads_ask_bind fun f _ => ?_
  refine leads_bind (Tally.leads_count hs hl ha) fun total t _ _ => ?_
  exact StoreM.leads_ask_bind fun _ _ => leads_pure trivial

theorem mem_of_mem_enter {κ α : Type} [DecidableEq κ] {es : List (κ × α)} {k : κ} {v : α}
    {e : κ × α} (h : e ∈ enter es k v) : e = (k,v) ∨ e ∈ es := by
  induction es with
  | nil => exact Or.inl (List.mem_singleton.mp h)
  | cons f es ih =>
    rw [enter] at h
    split at h
    · exact (List.mem_cons.mp h).imp_right (List.mem_cons_of_mem _)
    · rcases List.mem_cons.mp h with rfl | h
      · exact Or.inr (List.mem_cons_self ..)
      · exact (ih h).imp_right (List.mem_cons_of_mem _)

theorem mem_of_mem_entries {κ α : Type} [DecidableEq κ] {ps : List (κ × α)} {e : κ × α}
    (h : e ∈ entries ps) : e ∈ ps := by
  have hfold : ∀ (qs es : List (κ × α)), e ∈ qs.foldl (fun es p => enter es p.1 p.2) es →
      e ∈ es ∨ e ∈ qs := by
    intro qs
    induction qs with
    | nil => exact fun es h => Or.inl h
    | cons q qs ih =>
      intro es h
      rcases ih _ h with h | h
      · rcases mem_of_mem_enter h with rfl | h
        · exact Or.inr (List.mem_cons_self ..)
        · exact Or.inl h
      · exact Or.inr (List.mem_cons_of_mem _ h)
  simpa using hfold ps [] h

theorem leads_table (hs : s.Sound) (hl : tame → s.Loopless)
    {programs : List (String × Argument)} (ha : ∀ p ∈ programs, p.2.Known s) :
    Leads tame id (Table.of programs) s fun _ _ => True := by
  have hrows : Leads tame id (Table.of programs) s fun rows t => ∀ r ∈ rows, True := by
    unfold Table.of
    apply leads_mapM
    · intro p hp t ht
      have hk := (ha p (mem_of_mem_entries hp)).edits ht
      exact leads_row (ht.sound hs) (ht.loopless hl) p.1 hk
    · exact fun _ _ _ _ _ => trivial
  exact leads_mono hrows fun _ _ _ _ => trivial

end RobotCode
