import RobotCode.Blueprint
import RobotCode.Metrics.Table
import RobotCode.Statement.Equality
import RobotCode.Tally.Walk

/-! # Commands

Everything that can be done with statements, as data, so that a run is a list of commands. A command
that fails leaves the store as it has changed it up to then, and a run goes on from there.
-/
namespace RobotCode

inductive Command where
  | create
  | createLike (r : NodeId)
  | build (b : Blueprint)
  | call (name : Argument)
  | block (parts : List Argument)
  | ifThen (test body : Argument)
  | ifElse (test body₁ body₂ : Argument)
  | whileDo (test body : Argument)
  | instructions (names : List Argument)
  | copy (r : NodeId)
  | child (r : NodeId) (i : Int)
  | kind (r : NodeId)
  | length (r : NodeId)
  | remove (r : NodeId) (pos : Argument)
  | add (r : NodeId) (pos a : Argument)
  | disassembleIf (r : NodeId) (output : Argument)
  | disassembleIfElse (r : NodeId) (output₁ output₂ : Argument)
  | disassembleWhile (r : NodeId) (output : Argument)
  | disassembleCall (r : NodeId)
  | assembleIf (r : NodeId) (test body : Argument)
  | assembleIfElse (r : NodeId) (test body₁ body₂ : Argument)
  | assembleWhile (r : NodeId) (test body : Argument)
  | assembleCall (r : NodeId) (name : Argument)
  | children (r : NodeId)
  | condition (r : NodeId)
  | callName (r : NodeId)
  | size (r : NodeId)
  | text (a : Argument)
  | equals (a b : Argument)
  | differs (a b : Argument)
  | equalStatements (a b : Argument)
  | count (a : Argument)
  | countWalking (a : Argument)
  | profile (a : Argument)
  | vector (a : Argument)
  | density (a : Argument)
  | table (programs : List (String × Argument))

inductive Answer where
  | done
  | made (a : Argument)
  | statements (ns : List NodeId)
  | kind (k : Kind)
  | condition (c : Option Condition)
  | name (t : Option String)
  | truth (b : Bool)
  | number (n : Nat)
  | text (t : String)
  | profile (f : Profile)
  | vector (ns : List Nat)
  | density (d : Density)
  | table (t : Table)

namespace Command

def run : Command → StoreM Answer
  | .create => return .made (.statement (← Statement.create))
  | .createLike _ => return .made (.statement (← Statement.create))
  | .build b => return .made (← b.build)
  | .call name => return .made (.statement (← Statement.call name))
  | .block parts => return .made (.statement (← Statement.block parts))
  | .ifThen test body => return .made (.statement (← Statement.ifThen test body))
  | .ifElse test body₁ body₂ => return .made (.statement (← Statement.ifElse test body₁ body₂))
  | .whileDo test body => return .made (.statement (← Statement.whileDo test body))
  | .instructions names => return .made (.statement (← Statement.instructions names))
  | .copy r => return .made (.statement (← Statement.copy r))
  | .child r i => return .made (.statement (← Statement.child r i))
  | .kind r => return .kind (← Statement.kind r)
  | .length r => return .number (← Statement.length r)
  | .remove r pos => return .made (.statement (← Statement.remove r pos))
  | .add r pos a => do
    Statement.add r pos a
    return .done
  | .disassembleIf r output => return .condition (← Statement.disassembleIf r output)
  | .disassembleIfElse r output₁ output₂ =>
    return .condition (← Statement.disassembleIfElse r output₁ output₂)
  | .disassembleWhile r output => return .condition (← Statement.disassembleWhile r output)
  | .disassembleCall r => return .name (← Statement.disassembleCall r)
  | .assembleIf r test body => do
    Statement.assembleIf r test body
    return .done
  | .assembleIfElse r test body₁ body₂ => do
    Statement.assembleIfElse r test body₁ body₂
    return .done
  | .assembleWhile r test body => do
    Statement.assembleWhile r test body
    return .done
  | .assembleCall r name => do
    Statement.assembleCall r name
    return .done
  | .children r => return .statements (← Statement.children r)
  | .condition r => return .condition (← Statement.condition r)
  | .callName r => return .name (← Statement.callName r)
  | .size r => return .number (← Statement.size r)
  | .text a => StoreM.ask fun s => return .text (← a.shown s.text)
  | .equals a b => return .truth (← Statement.equals a b)
  | .differs a b => return .truth (!(← Statement.equals a b))
  | .equalStatements a b => return .truth (← Statement.equalStatements a b)
  | .count a => return .number (← Tally.count a)
  | .countWalking a => return .number (← Tally.countWalking a)
  | .profile a => return .profile (← Profile.of a)
  | .vector a => return .vector (← Profile.of a).vector
  | .density a => return .density (← Density.of a)
  | .table programs => return .table (← Table.of programs)

end Command
end RobotCode
