/-! # Primitive instructions

The five instructions that every robot knows. A call to any other name is a call to a procedure, and
its text is never looked into.
-/
namespace RobotCode

inductive Primitive where
  | move | turnleft | turnright | infect | skip
  deriving DecidableEq, Repr

namespace Primitive

def name : Primitive → String
  | .move => "move"
  | .turnleft => "turnleft"
  | .turnright => "turnright"
  | .infect => "infect"
  | .skip => "skip"

/-- All primitives, in the order of reports. -/
def all : List Primitive := [.move, .turnleft, .turnright, .infect, .skip]

def ofName? (s : String) : Option Primitive := all.find? (·.name == s)

theorem ofName?_name (p : Primitive) : ofName? p.name = some p := by cases p <;> decide

theorem name_of_ofName? {s : String} {p : Primitive} (h : ofName? s = some p) : p.name = s := by
  simpa using List.find?_some h

theorem ofName?_eq_some_iff {s : String} {p : Primitive} : ofName? s = some p ↔ p.name = s :=
  ⟨name_of_ofName?, fun h => h ▸ ofName?_name p⟩

/-- Names are compared exactly: `"Move"` and `"move "` are procedures. -/
def isPrimitive (s : String) : Bool := (ofName? s).isSome

/-- The names in alphabetical order. -/
def sortedNames : List String := (all.map name).mergeSort (fun a b => decide (a ≤ b))

end Primitive
end RobotCode
