import RobotCode.Statement.Block
import RobotCode.Statement.Assembly

/-! # Builders

Each builder makes a new statement out of statements it is handed, which are moved into it and left
empty blocks. One that fails has moved the arguments before the one at fault.
-/
namespace RobotCode.Statement
open StoreM

def call (name : Argument) : StoreM NodeId := do
  let r ← create
  assembleCall r name
  return r

/-- Puts an argument at the end of a block. -/
def append (r : NodeId) (a : Argument) : StoreM Unit := do
  let n ← length r
  add r (.int n) a

def block (parts : List Argument) : StoreM NodeId := do
  let r ← create
  parts.forM (append r)
  return r

def ifThen (test body : Argument) : StoreM NodeId := do
  let r ← create
  assembleIf r test body
  return r

def ifElse (test body₁ body₂ : Argument) : StoreM NodeId := do
  let r ← create
  assembleIfElse r test body₁ body₂
  return r

def whileDo (test body : Argument) : StoreM NodeId := do
  let r ← create
  assembleWhile r test body
  return r

/-- A block of calls. The names are taken as they are, so that one that is misspelled is a call to a
procedure. -/
def instructions (names : List Argument) : StoreM NodeId := do
  let calls ← names.mapM call
  block (calls.map .statement)

end RobotCode.Statement
