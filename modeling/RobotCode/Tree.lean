import RobotCode.Kind
import RobotCode.Condition
import RobotCode.Primitive
import RobotCode.Text.Quoted

/-! # Statements as values

The value of a statement, with no regard to where it is kept. A statement that has been taken apart
is a leaf: all it shows is the kind it has to be assembled as.
-/
namespace RobotCode

inductive Tree where
  | block (parts : List Tree)
  | guarded (kind : Guarded) (test : Condition) (bodies : List Tree)
  | call (name : String)
  | pending (awaited : Kind)

namespace Tree

instance : Inhabited Tree := ⟨.block []⟩

@[elab_as_elim]
theorem induction {P : Tree → Prop} (block : ∀ ts, (∀ t ∈ ts, P t) → P (.block ts))
    (guarded : ∀ g c ts, (∀ t ∈ ts, P t) → P (.guarded g c ts))
    (call : ∀ name, P (.call name)) (pending : ∀ k, P (.pending k)) (t : Tree) : P t :=
  @Tree.rec P (fun ts => ∀ t ∈ ts, P t) block guarded call pending
    (fun _ h => nomatch h) (fun _ _ ht hts => List.forall_mem_cons.mpr ⟨ht, hts⟩) t

mutual
def decEq : (t u : Tree) → Decidable (t = u)
  | .block ts, .block us =>
    match decEqList ts us with
    | .isTrue h => .isTrue (by rw [h])
    | .isFalse h => .isFalse (by simp [h])
  | .guarded g c ts, .guarded g' c' us =>
    if hl : g = g' ∧ c = c' then
      match decEqList ts us with
      | .isTrue h => .isTrue (by rw [hl.1, hl.2, h])
      | .isFalse h => .isFalse (by simp [h])
    else .isFalse (by simp only [guarded.injEq]; exact fun h => hl ⟨h.1,h.2.1⟩)
  | .call m, .call n => if h : m = n then .isTrue (by rw [h]) else .isFalse (by simp [h])
  | .pending j, .pending k => if h : j = k then .isTrue (by rw [h]) else .isFalse (by simp [h])
  | .block _, .guarded .. | .block _, .call _ | .block _, .pending _ => .isFalse nofun
  | .guarded .., .block _ | .guarded .., .call _ | .guarded .., .pending _ => .isFalse nofun
  | .call _, .block _ | .call _, .guarded .. | .call _, .pending _ => .isFalse nofun
  | .pending _, .block _ | .pending _, .guarded .. | .pending _, .call _ => .isFalse nofun

def decEqList : (ts us : List Tree) → Decidable (ts = us)
  | [], [] => .isTrue rfl
  | [], _ :: _ | _ :: _, [] => .isFalse nofun
  | t :: ts, u :: us =>
    match decEq t u, decEqList ts us with
    | .isTrue ht, .isTrue hts => .isTrue (by rw [ht, hts])
    | .isFalse ht, _ => .isFalse (by simp [ht])
    | _, .isFalse hts => .isFalse (by simp [hts])
end

instance : DecidableEq Tree := decEq

mutual
/-- The statement in full, with bodies between brackets and names quoted. -/
def text : Tree → String
  | .block ts => "Statement(BLOCK, [" ++ ", ".intercalate (texts ts) ++ "])"
  | .guarded g c ts =>
    "Statement(" ++ g.kind.name ++ ", " ++ c.name ++ ", [" ++ ", ".intercalate (texts ts) ++ "])"
  | .call name => "Statement(CALL, " ++ Text.quoted name ++ ")"
  | .pending k => "Statement(<disassembled " ++ k.name ++ ">)"

def texts : List Tree → List String
  | [] => []
  | t :: ts => t.text :: texts ts
end

mutual
/-- The number of nodes. -/
def size : Tree → Nat
  | .block ts => 1 + sizes ts
  | .guarded _ _ ts => 1 + sizes ts
  | .call _ => 1
  | .pending _ => 1

def sizes : List Tree → Nat
  | [] => 0
  | t :: ts => t.size + sizes ts
end

theorem size_pos (t : Tree) : 0 < t.size := by cases t <;> simp only [size] <;> omega

mutual
/-- The names of all calls, from left to right. -/
def calls : Tree → List String
  | .block ts => callsOf ts
  | .guarded _ _ ts => callsOf ts
  | .call name => [name]
  | .pending _ => []

def callsOf : List Tree → List String
  | [] => []
  | t :: ts => t.calls ++ callsOf ts
end

theorem callsOf_eq_flatMap (ts : List Tree) : callsOf ts = ts.flatMap calls := by
  induction ts with
  | nil => rfl
  | cons t ts ih => simp [callsOf, ih]

/-- The primitive instructions called, from left to right. -/
def primitives (t : Tree) : List Primitive := t.calls.filterMap Primitive.ofName?

mutual
/-- What the first statement taken apart, in the order of reading, has to be assembled as. -/
def firstPending? : Tree → Option Kind
  | .block ts => firstPendingOf? ts
  | .guarded _ _ ts => firstPendingOf? ts
  | .call _ => none
  | .pending k => some k

def firstPendingOf? : List Tree → Option Kind
  | [] => none
  | t :: ts => t.firstPending? <|> firstPendingOf? ts
end

end Tree
end RobotCode
