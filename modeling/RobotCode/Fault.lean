import RobotCode.Kind

/-! # Faults

What can go wrong in an operation on statements. A violation breaks a rule of the operations
themselves; the other faults come from arguments that are not of the sort asked for. A traversal
that would go round a cycle for ever is `endless`: the operation has no result then.
-/
namespace RobotCode

inductive Violation where
  | disassembled (awaited : Kind)
  | notAStatement (type : String)
  | containsItself
  | containsAncestor
  | wrongKind (expected actual : Kind)
  | outputNotEmpty
  | outputsNotDistinct
  | bodiesNotDistinct
  | awaitsOther (kind awaited : Kind)
  | notACondition (shown : String)
  | nameNotText (shown : String)
  | outOfRange (shown : String) (length : Nat)
  deriving DecidableEq, Repr

inductive Fault where
  | violation (v : Violation)
  | notOrdered (type : String)
  | notAnIndex (type : String)
  | notHashable (type : String)
  | lacks (type member : String)
  | notAMember (shown family : String)
  | unknownName (shown : String)
  | noSuchChild
  | indexTooLarge
  | noPrograms
  | endless
  deriving DecidableEq, Repr

namespace Violation

def message : Violation → String
  | .disassembled k => "Statement is disassembled (pending assemble for " ++ k.name ++ ")"
  | .notAStatement type => "Expected a Statement, got " ++ type
  | .containsItself => "A statement cannot contain itself"
  | .containsAncestor => "A statement cannot contain one of its ancestors"
  | .wrongKind expected actual =>
    "Expected a " ++ expected.name ++ " statement, got " ++ actual.name
  | .outputNotEmpty => "Output statement must be an empty BLOCK"
  | .outputsNotDistinct => "Output statements must be distinct"
  | .bodiesNotDistinct => "Body statements must be distinct"
  | .awaitsOther kind awaited =>
    "Cannot assemble " ++ kind.name ++ ": statement was disassembled from " ++ awaited.name
  | .notACondition shown => "Expected a Condition, got " ++ shown
  | .nameNotText shown => "Call name must be a str, got " ++ shown
  | .outOfRange shown length =>
    "Block index " ++ shown ++ " out of range for length " ++ toString length

end Violation

namespace Fault

def message : Fault → String
  | .violation v => v.message
  | .notOrdered type => "'<=' not supported between instances of 'int' and '" ++ type ++ "'"
  | .notAnIndex type => "'" ++ type ++ "' object cannot be interpreted as an integer"
  | .notHashable type => "unhashable type: '" ++ type ++ "'"
  | .lacks type member => "'" ++ type ++ "' object has no attribute '" ++ member ++ "'"
  | .notAMember shown family => shown ++ " is not a valid " ++ family
  | .unknownName shown => shown
  | .noSuchChild => "tuple index out of range"
  | .indexTooLarge => "cannot fit 'int' into an index-sized integer"
  | .noPrograms => "No programs to analyze"
  | .endless => "maximum recursion depth exceeded"

end Fault
end RobotCode
