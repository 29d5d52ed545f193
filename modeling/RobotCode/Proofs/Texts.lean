import RobotCode.Proofs.Value

/-! # Texts

The text of a statement has no end if the statement, or one below it, lies below itself, and for no
other reason. An argument is shown by asking the statements in it for their texts; it can be shown
if all of them have one.
-/
namespace RobotCode
open Store
variable {s t : Store} {n : NodeId} {e : Fault}

namespace Store

theorem exists_text (h : ¬ s.Circular n) : ∃ x, s.text n = .ok x := by
  obtain ⟨w,hw⟩ := Option.ne_none_iff_exists'.mp fun hnone => h (tree?_eq_none_iff.mp hnone)
  exact ⟨w.text,text_of_tree? hw⟩

theorem text_congr (h : ∀ m, s.Within n m → t.read m = s.read m) : t.text n = s.text n := by
  rw [text, text, tree?_congr h]

theorem Sound.text_eq (hs : s.Sound) (hk : ∀ m ∈ s, t.read m = s.read m) (hn : n ∈ s) :
    t.text n = s.text n :=
  text_congr fun m hm => hk m (hs.mem_of_within hn hm)

theorem Circular.mem (h : s.Circular n) : n ∈ s := by
  obtain ⟨m,hw,hm⟩ := h
  exact (hw.below hm).mem

end Store

namespace Argument

mutual
/-- All statements that an argument is or holds. -/
def nodes : Argument → List NodeId
  | .statement n => [n]
  | .list items => nodesOfItems items
  | .mapping entries => nodesOfEntries entries
  | _ => []

def nodesOfItems : List Argument → List NodeId
  | [] => []
  | a :: items => a.nodes ++ nodesOfItems items

def nodesOfEntries : List (String × Argument) → List NodeId
  | [] => []
  | (_,a) :: entries => a.nodes ++ nodesOfEntries entries
end

theorem nodesOfEntries_eq_flatMap (entries : List (String × Argument)) :
    nodesOfEntries entries = entries.flatMap fun entry => entry.2.nodes := by
  induction entries with
  | nil => rfl
  | cons entry entries ih => rw [nodesOfEntries, ih, List.flatMap_cons]

section Shown
variable {f g : NodeId → Except Fault String}

mutual
theorem shown_congr : (a : Argument) → (∀ n ∈ a.nodes, f n = g n) → a.shown f = a.shown g
  | .statement n, h => h n (List.mem_singleton_self n)
  | .list items, h => by rw [shown, shown, shownItems_congr items h]
  | .mapping entries, h => by rw [shown, shown, shownEntries_congr entries h]
  | .nothing, _ | .bool _, _ | .int _, _ | .real _, _ | .text _, _ | .kind _, _
  | .condition _, _ => rfl

theorem shownItems_congr : (items : List Argument) → (∀ n ∈ nodesOfItems items, f n = g n) →
    shownItems f items = shownItems g items
  | [], _ => rfl
  | a :: items, h => by
    rw [shownItems, shownItems, shown_congr a fun n hn => h n (List.mem_append_left _ hn),
      shownItems_congr items fun n hn => h n (List.mem_append_right _ hn)]

theorem shownEntries_congr : (entries : List (String × Argument)) →
    (∀ n ∈ nodesOfEntries entries, f n = g n) → shownEntries f entries = shownEntries g entries
  | [], _ => rfl
  | (key,a) :: entries, h => by
    rw [shownEntries, shownEntries, shown_congr a fun n hn => h n (List.mem_append_left _ hn),
      shownEntries_congr entries fun n hn => h n (List.mem_append_right _ hn)]
end

/-- A result for which the statements `ns` are asked for their texts: there is one if they all have
texts, and it fails as one of them does. -/
inductive Asks {α : Type} (f : NodeId → Except Fault String) (ns : List NodeId) :
    Except Fault α → Prop
  | ok {x : α} (h : ∀ n ∈ ns, ∃ y, f n = .ok y) : Asks f ns (.ok x)
  | error {n : NodeId} {e : Fault} (hn : n ∈ ns) (h : f n = .error e) : Asks f ns (.error e)

namespace Asks
variable {α β γ : Type} {ns ms : List NodeId} {x : Except Fault α} {y : Except Fault β}

theorem nil {a : α} : Asks f [] (.ok a) := .ok fun _ hn => absurd hn List.not_mem_nil

theorem map {k : α → β} (h : Asks f ns x) : Asks f ns (do return k (← x)) := by
  cases h with
  | ok h => exact .ok h
  | error hn h => exact .error hn h

theorem append {k : α → β → γ} (hx : Asks f ns x) (hy : Asks f ms y) :
    Asks f (ns ++ ms) (do return k (← x) (← y)) := by
  cases hx with
  | error hn h => exact .error (List.mem_append_left ms hn) h
  | ok hns =>
    cases hy with
    | error hm h => exact .error (List.mem_append_right ns hm) h
    | ok hms => exact .ok fun n hn => (List.mem_append.mp hn).elim (hns n) (hms n)

theorem exists_ok (h : Asks f ns x) (hns : ∀ n ∈ ns, ∃ y, f n = .ok y) : ∃ a, x = .ok a := by
  cases h with
  | ok _ => exact ⟨_,rfl⟩
  | error hn he =>
    obtain ⟨y,hy⟩ := hns _ hn
    rw [hy] at he
    cases he

end Asks

mutual
/-- An argument is shown by asking all statements in it, and nothing else. -/
theorem asks_shown : (a : Argument) → Asks f a.nodes (a.shown f)
  | .statement n => by
    unfold shown
    cases hn : f n with
    | ok x => exact .ok fun m hm => ⟨x,List.mem_singleton.mp hm ▸ hn⟩
    | error e => exact .error (List.mem_singleton_self n) hn
  | .list items => (asks_shownItems items).map
  | .mapping entries => (asks_shownEntries entries).map
  | .nothing | .bool _ | .int _ | .real _ | .text _ | .kind _ | .condition _ => .nil

theorem asks_shownItems : (items : List Argument) →
    Asks f (nodesOfItems items) (shownItems f items)
  | [] => .nil
  | a :: items => (asks_shown a).append (asks_shownItems items)

theorem asks_shownEntries : (entries : List (String × Argument)) →
    Asks f (nodesOfEntries entries) (shownEntries f entries)
  | [] => .nil
  | (_,a) :: entries => (asks_shown a).append (asks_shownEntries entries)
end

end Shown

variable {a : Argument}

theorem exists_shown (h : ∀ n ∈ a.nodes, ¬ s.Circular n) : ∃ x, a.shown s.text = .ok x :=
  a.asks_shown.exists_ok fun n hn => exists_text (h n hn)

end Argument
end RobotCode
