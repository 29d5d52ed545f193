import RobotCode.Store.Edit

/-! # Profiles

How often a statement calls each primitive instruction. A profile lists the primitives that occur,
in the order in which they are first met; a vector lists all of them in the order of reports.
-/
namespace RobotCode

abbrev Profile := List (Primitive × Nat)

namespace Profile

/-- One more call, at the place of the primitive if it has one, and else at the end. -/
def tick : Profile → Primitive → Profile
  | [], p => [(p, 1)]
  | (q, n) :: rest, p => if q = p then (q, n + 1) :: rest else (q, n) :: tick rest p

def count : Profile → Primitive → Nat
  | [], _ => 0
  | (q, n) :: rest, p => if q = p then n else count rest p

def vector (f : Profile) : List Nat := Primitive.all.map f.count

def ofPrimitives (ps : List Primitive) : Profile := ps.foldl tick []

theorem count_tick (f : Profile) (p q : Primitive) :
    (f.tick p).count q = f.count q + if p = q then 1 else 0 := by
  induction f with
  | nil => simp [tick, count]
  | cons e f ih =>
    obtain ⟨r, n⟩ := e
    by_cases hr : r = p
    · subst hr
      by_cases hq : r = q <;> simp [tick, count, hq]
    · by_cases hq : r = q
      · subst hq
        simp [tick, count, hr, Ne.symm hr]
      · simp [tick, count, hr, hq, ih]

end Profile

namespace Store

def profileWithin (s : Store) : (depth : Nat) → Profile → NodeId → Except Fault Profile
  | 0, _, _ => .error .endless
  | d + 1, f, n => do
    let v ← s.assembled n
    match v.label with
    | .call name => return (Primitive.ofName? name).elim f f.tick
    | _ => v.children.foldlM (s.profileWithin d) f

def profile (s : Store) (n : NodeId) : Except Fault Profile := s.profileWithin (s.size + 1) [] n

end Store

def Profile.of (a : Argument) : StoreM Profile := StoreM.ask fun s => do
  let n ← a.toStatement "kind"
  s.profile n

end RobotCode
