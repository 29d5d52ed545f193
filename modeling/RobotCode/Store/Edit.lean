import RobotCode.Argument
import RobotCode.Store.Search

/-! # Edits of the store

An edit that fails keeps what it has changed up to then. Checks only read the store, and the fields
of a statement go from place to place by `move`, which leaves an empty block behind.
-/
namespace RobotCode

abbrev StoreM := EStateM Fault Store

namespace Store

/-- What is read of a statement that has not been taken apart. -/
def assembled (s : Store) (n : NodeId) : Except Fault Node :=
  match (s.cell n).awaited? with
  | some k => .error (.violation (.disassembled k))
  | none => .ok (s.read n)

theorem awaited?_read (s : Store) (n : NodeId) :
    (s.read n).label.awaited? = (s.cell n).awaited? := (s.cell n).awaited?_label

theorem kind_read {s : Store} {n : NodeId} (h : (s.read n).label.awaited? = none) :
    (s.read n).label.kind = (s.cell n).kind := by
  rw [awaited?_read] at h
  exact Cell.kind_label h

theorem assembled_of_none {s : Store} {n : NodeId} (h : (s.read n).label.awaited? = none) :
    s.assembled n = .ok (s.read n) := by
  rw [awaited?_read] at h
  simp [assembled, h]

theorem assembled_of_some {s : Store} {n : NodeId} {k : Kind}
    (h : (s.read n).label.awaited? = some k) :
    s.assembled n = .error (.violation (.disassembled k)) := by
  rw [awaited?_read] at h
  simp [assembled, h]

theorem assembled_eq_ok_iff {s : Store} {n : NodeId} {v : Node} :
    s.assembled n = .ok v ↔ (s.read n).label.awaited? = none ∧ s.read n = v := by
  cases h : (s.read n).label.awaited? with
  | none => simp [assembled_of_none h]
  | some k => simp [assembled_of_some h]

/-- The fields of a statement that has not been taken apart. -/
def fields (s : Store) (n : NodeId) : Except Fault Cell := do
  let _ ← s.assembled n
  return s.cell n

theorem fields_of_none {s : Store} {n : NodeId} (h : (s.read n).label.awaited? = none) :
    s.fields n = .ok (s.cell n) := by
  rw [fields, assembled_of_none h]
  rfl

theorem fields_of_error {s : Store} {n : NodeId} {e : Fault} (h : s.assembled n = .error e) :
    s.fields n = .error e := by
  rw [fields, h]
  rfl

theorem fields_of_some {s : Store} {n : NodeId} {k : Kind}
    (h : (s.read n).label.awaited? = some k) :
    s.fields n = .error (.violation (.disassembled k)) := fields_of_error (assembled_of_some h)

theorem fields_eq_ok_iff {s : Store} {n : NodeId} {c : Cell} :
    s.fields n = .ok c ↔ (s.read n).label.awaited? = none ∧ s.cell n = c := by
  cases h : (s.read n).label.awaited? with
  | none => simp [fields_of_none h]
  | some k => simp [fields_of_some h]

/-- What is read of an assembled statement of kind `k`. -/
def expect (s : Store) (k : Kind) (n : NodeId) : Except Fault Node := do
  let v ← s.assembled n
  if (s.cell n).kind = k then return v else throw (.violation (.wrongKind k (s.cell n).kind))

theorem expect_eq (s : Store) (k : Kind) (n : NodeId) :
    s.expect k n = s.assembled n >>= fun v =>
      if v.label.kind = k then pure v else throw (.violation (.wrongKind k v.label.kind)) := by
  unfold expect
  cases h : (s.read n).label.awaited? with
  | none =>
    rw [assembled_of_none h]
    simp only [bind, Except.bind, kind_read h]
  | some j =>
    rw [assembled_of_some h]
    rfl

theorem expect_eq_ok_iff {s : Store} {k : Kind} {n : NodeId} {v : Node} :
    s.expect k n = .ok v ↔ s.assembled n = .ok v ∧ v.label.kind = k := by
  rw [expect_eq]
  cases h : s.assembled n with
  | error e => simp [bind, Except.bind]
  | ok u =>
    by_cases hk : u.label.kind = k
    · simp only [bind, Except.bind, hk, if_true, pure, Except.pure, Except.ok.injEq]
      exact ⟨fun e => ⟨e, e ▸ hk⟩, fun e => e.1⟩
    · simp only [bind, Except.bind, hk, if_false, throw, throwThe,
        MonadExceptOf.throw, Except.ok.injEq, reduceCtorEq, false_iff]
      rintro ⟨rfl, e⟩
      exact hk e

/-- Whether `a` can be put below `r`: a statement other than `r` that does not hold `r`. -/
def insertable (s : Store) (r : NodeId) (a : Argument) : Except Fault NodeId :=
  match a with
  | .statement n =>
    if n = r then .error (.violation .containsItself)
    else do
      let _ ← s.assembled n
      if ← s.reaches n r then throw (.violation .containsAncestor) else return n
  | a => .error (.violation (.notAStatement a.typeName))

/-- An empty block that can take over the fields of another statement. -/
def emptyOutput (s : Store) (a : Argument) : Except Fault NodeId :=
  match a with
  | .statement n => do
    let _ ← s.assembled n
    if (s.cell n).kind = .block ∧ (s.cell n).children = [] then return n
    else throw (.violation .outputNotEmpty)
  | a => .error (.violation (.notAStatement a.typeName))

theorem emptyOutput_eq (s : Store) (n : NodeId) :
    s.emptyOutput (.statement n) = s.assembled n >>= fun v =>
      if v = {} then pure n else throw (.violation .outputNotEmpty) := by
  simp only [emptyOutput]
  cases h : (s.read n).label.awaited? with
  | none =>
    have he : ((s.cell n).kind = .block ∧ (s.cell n).children = []) = (s.read n = {}) :=
      propext (Cell.node_eq_empty_iff (by rwa [awaited?_read] at h)).symm
    rw [assembled_of_none h]
    simp only [bind, Except.bind, he]
  | some j =>
    rw [assembled_of_some h]
    rfl

/-- Whether `n` can become a statement of kind `k`; one taken apart only becomes what it was. -/
def ready (s : Store) (k : Kind) (n : NodeId) : Except Fault Unit :=
  match (s.cell n).awaited? with
  | some j => if j = k then .ok () else .error (.violation (.awaitsOther k j))
  | none => .ok ()

theorem ready_eq (s : Store) (k : Kind) (n : NodeId) : s.ready k n =
    match (s.read n).label.awaited? with
    | some j => if j = k then .ok () else .error (.violation (.awaitsOther k j))
    | none => .ok () := by
  rw [awaited?_read]
  rfl

/-- The store after the fields of `a` have gone to `b`. -/
def transfer (s : Store) (a b : NodeId) : Store := (s.put b (s.cell a)).put a {}

end Store

namespace StoreM

/-- A question to the store. -/
def ask (f : Store → Except Fault α) : StoreM α := fun s =>
  match f s with
  | .ok a => .ok a s
  | .error e => .error e s

theorem ask_of_ok {f : Store → Except Fault α} {s : Store} {a : α} (h : f s = .ok a) :
    ask f s = .ok a s := by simp [ask, h]

theorem ask_of_error {f : Store → Except Fault α} {s : Store} {e : Fault} (h : f s = .error e) :
    ask f s = .error e s := by simp [ask, h]

/-- A new statement with the given fields. -/
def fresh (c : Cell) : StoreM NodeId := fun s => .ok s.next (s.push c)

def put (n : NodeId) (c : Cell) : StoreM Unit := fun s => .ok () (s.put n c)

def modify (n : NodeId) (f : Cell → Cell) : StoreM Unit := fun s => .ok () (s.put n (f (s.cell n)))

/-- Gives `target` the fields of `source`, and leaves `source` an empty block. -/
def move (source target : NodeId) : StoreM Unit := do
  let c ← ask (·.fields source)
  put target { c with awaited? := none }
  put source {}

theorem move_of_none {s : Store} {source target : NodeId}
    (h : (s.read source).label.awaited? = none) :
    move source target s = .ok () (s.transfer source target) := by
  have hc : { s.cell source with awaited? := none } = s.cell source := by
    rw [← h, Store.awaited?_read]
  simp [move, ask, put, Store.fields_of_none h, hc, Store.transfer, bind, EStateM.bind]

theorem move_of_some {s : Store} {source target : NodeId} {k : Kind}
    (h : (s.read source).label.awaited? = some k) :
    move source target s = .error (.violation (.disassembled k)) s := by
  simp [move, ask, Store.fields_of_some h, bind, EStateM.bind]

/-- Moves the fields of an argument into a new statement that is to be a child of `r`. -/
def takeOver (r : NodeId) (a : Argument) : StoreM NodeId := do
  let n ← ask (·.insertable r a)
  let owned ← fresh {}
  move n owned
  return owned

theorem takeOver_of_ok {s : Store} {r n : NodeId} {a : Argument} (h : s.insertable r a = .ok n)
    (hn : n ∈ s) (hp : (s.read n).label.awaited? = none) :
    takeOver r a s = .ok s.next ((s.push {}).transfer n s.next) := by
  have hm := @move_of_none (s.push {}) n s.next (by rwa [Store.read_push_of_mem _ hn])
  simp [takeOver, ask, h, bind, EStateM.bind, fresh, hm, pure, EStateM.pure]

theorem takeOver_of_error {s : Store} {r : NodeId} {a : Argument} {e : Fault}
    (h : s.insertable r a = .error e) : takeOver r a s = .error e s := by
  simp [takeOver, ask, h, bind, EStateM.bind]

end StoreM
end RobotCode
