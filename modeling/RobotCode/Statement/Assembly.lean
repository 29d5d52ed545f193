import RobotCode.Store.Edit

/-! # Taking apart and putting together

Taking a guarded statement apart moves its bodies into empty blocks of the caller and hands out its
test; a call hands out its name. Until it is assembled as the same kind again the statement is good
for nothing else. Assembling moves the bodies given into new nodes below the statement, whatever it
held before.
-/
namespace RobotCode.Statement
open StoreM

/-- The test and the bodies of a statement of kind `g`. -/
def guardedParts (g : Guarded) (r : NodeId) : StoreM (Condition × List NodeId) := do
  let v ← ask (·.expect g.kind r)
  match v.label with
  | .guarded _ c => return (c, v.children)
  | l => throw (.violation (.wrongKind g.kind l.kind))

def requireDistinct (v : Violation) (ns : List NodeId) : StoreM Unit :=
  if ns.Nodup then pure () else throw (.violation v)

/-- The outputs take the bodies one after another, on the store as the moves before have left it. -/
def disassemble (g : Guarded) (r : NodeId) (outputs : List Argument) : StoreM Condition := do
  let (test, bodies) ← guardedParts g r
  let outs ← ask fun s => outputs.mapM s.emptyOutput
  requireDistinct .outputsNotDistinct outs
  (outs.zip bodies).forM fun (out, body) => move body out
  modify r fun c => { c with test? := none, children := [], awaited? := some g.kind }
  return test

/-- The condition handed over as a test. -/
def testOf (text : NodeId → Except Fault String) : Argument → Except Fault Condition
  | .condition c => return c
  | a => do throw (.violation (.notACondition (← a.shown text)))

def assemble (g : Guarded) (r : NodeId) (test : Argument) (bodies : List Argument) :
    StoreM Unit := do
  ask (·.ready g.kind r)
  let c ← ask fun s => testOf s.text test
  let parts ← ask fun s => bodies.mapM (s.insertable r)
  requireDistinct .bodiesNotDistinct parts
  let owned ← bodies.mapM (takeOver r)
  put r (.guarded g c owned)

def disassembleIf (r : NodeId) (output : Argument) : StoreM Condition :=
  disassemble .ifThen r [output]

def disassembleWhile (r : NodeId) (output : Argument) : StoreM Condition :=
  disassemble .whileDo r [output]

def disassembleIfElse (r : NodeId) (output₁ output₂ : Argument) : StoreM Condition :=
  disassemble .ifElse r [output₁, output₂]

def assembleIf (r : NodeId) (test body : Argument) : StoreM Unit :=
  assemble .ifThen r test [body]

def assembleWhile (r : NodeId) (test body : Argument) : StoreM Unit :=
  assemble .whileDo r test [body]

def assembleIfElse (r : NodeId) (test body₁ body₂ : Argument) : StoreM Unit :=
  assemble .ifElse r test [body₁, body₂]

def disassembleCall (r : NodeId) : StoreM String := do
  let v ← ask (·.expect .call r)
  match v.label with
  | .call name =>
    modify r fun c => { c with name? := none, awaited? := some .call }
    return name
  | l => throw (.violation (.wrongKind .call l.kind))

def assembleCall (r : NodeId) (name : Argument) : StoreM Unit := do
  ask (·.ready .call r)
  match name with
  | .text t => put r (.call t)
  | a => ask fun s => do throw (.violation (.nameNotText (← a.shown s.text)))

end RobotCode.Statement
