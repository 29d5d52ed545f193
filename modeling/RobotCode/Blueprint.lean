import RobotCode.Statement.Builders

/-! # Blueprints

A blueprint says how a statement is to be built by nested builders. The parts are built from left to
right before the builder around them is applied, and the first fault ends the work.
-/
namespace RobotCode

inductive Blueprint where
  | call (name : Argument)
  | instructions (names : List Argument)
  | block (parts : List Blueprint)
  | ifThen (test : Argument) (body : Blueprint)
  | ifElse (test : Argument) (body₁ body₂ : Blueprint)
  | whileDo (test : Argument) (body : Blueprint)
  /-- Something there already, to be moved into the statement around it. -/
  | given (a : Argument)

namespace Blueprint

mutual
def build : Blueprint → StoreM Argument
  | .call name => .statement <$> Statement.call name
  | .instructions names => .statement <$> Statement.instructions names
  | .block parts => do
    let parts ← buildAll parts
    .statement <$> Statement.block parts
  | .ifThen test body => do
    let body ← build body
    .statement <$> Statement.ifThen test body
  | .ifElse test body₁ body₂ => do
    let body₁ ← build body₁
    let body₂ ← build body₂
    .statement <$> Statement.ifElse test body₁ body₂
  | .whileDo test body => do
    let body ← build body
    .statement <$> Statement.whileDo test body
  | .given a => return a

def buildAll : List Blueprint → StoreM (List Argument)
  | [] => return []
  | b :: bs => do
    let a ← build b
    let as ← buildAll bs
    return a :: as
end

end Blueprint
end RobotCode
