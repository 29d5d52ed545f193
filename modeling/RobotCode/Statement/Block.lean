import RobotCode.Store.Edit

/-! # Blocks

Statements go into a block and come out of it by position. What goes in is moved: the statement
handed over is left an empty block. What comes out is the node itself.
-/
namespace RobotCode.Statement
open StoreM

/-- A new statement is an empty block. -/
def create : StoreM NodeId := fresh {}

def length (r : NodeId) : StoreM Nat := do
  let v ← ask (·.expect .block r)
  return v.children.length

/-- The place meant by a position within range. -/
def place (pos : Argument) : Option Nat → StoreM Nat
  | some i => pure i
  | none => throw (.notAnIndex pos.typeName)

def remove (r : NodeId) (pos : Argument) : StoreM NodeId := do
  let v ← ask (·.expect .block r)
  let i ← place pos (← ask fun s => pos.position s.text v.children.length false)
  match v.children[i]? with
  | none => throw .noSuchChild
  | some child =>
    modify r fun c => { c with children := v.children.eraseIdx i }
    return child

/-- The argument is moved before it turns out whether a position in range is a whole number. -/
def add (r : NodeId) (pos a : Argument) : StoreM Unit := do
  let v ← ask (·.expect .block r)
  let i? ← ask fun s => pos.position s.text v.children.length true
  let owned ← takeOver r a
  let i ← place pos i?
  modify r fun c => { c with children := v.children.insertIdx i owned }

end RobotCode.Statement
