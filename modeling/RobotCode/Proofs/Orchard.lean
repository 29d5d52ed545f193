import RobotCode.Proofs.Reachable
import RobotCode.Proofs.Texts

/-! # Statements as independent values

In an orchard every name stands for a tree of its own, and no tree is part of another. Operations
on the roots of a forest can be understood as operations on an orchard: what goes into a statement
leaves an empty block behind, and what comes out of one is a new tree.
-/
namespace RobotCode

namespace Tree

/-- The value of a statement that has not been taken apart. -/
def assembled (t : Tree) : Except Fault Tree :=
  match t.label.awaited? with
  | some k => .error (.violation (.disassembled k))
  | none => .ok t

/-- The value of an assembled statement of kind `k`. -/
def expect (k : Kind) (t : Tree) : Except Fault Tree := do
  let t ← t.assembled
  if t.label.kind = k then return t else throw (.violation (.wrongKind k t.label.kind))

/-- Whether a statement can become one of kind `k`. -/
def ready (k : Kind) (t : Tree) : Except Fault Unit :=
  match t.label.awaited? with
  | some j => if j = k then .ok () else .error (.violation (.awaitsOther k j))
  | none => .ok ()

end Tree

abbrev Orchard := NodeId → Tree

/-- What a step answers: a plain answer, the first tree it has made, or a view of parts of a
tree. -/
inductive Reply where
  | plain (a : Answer)
  | made
  | part (t : Tree)
  | parts (ts : List Tree)

/-- What a step does: the names that take new values, and the trees that get new names. -/
structure Effect where
  reply : Reply
  changed : List (NodeId × Tree) := []
  made : List Tree := []

namespace Orchard

/-- Every name on the list takes the value beside it, the first one if it is there twice. -/
def set (o : Orchard) : List (NodeId × Tree) → NodeId → Tree
  | [], m => o m
  | (n,t) :: us, m => if m = n then t else o.set us m

/-- The orchard after a step whose new trees have been given names. -/
def after (o : Orchard) (e : Effect) (names : List NodeId) : Orchard :=
  o.set (names.zip e.made ++ e.changed)

variable (o : Orchard)

def text (n : NodeId) : Except Fault String := return (o n).text

/-- A statement to be put into another one. -/
def given (a : Argument) : Except Fault NodeId :=
  match a with
  | .statement n => do
    let _ ← (o n).assembled
    return n
  | a => .error (.violation (.notAStatement a.typeName))

/-- An empty block to take the value of a body. -/
def vacant (a : Argument) : Except Fault NodeId :=
  match a with
  | .statement n => do
    let t ← (o n).assembled
    if t = .block [] then return n else throw (.violation .outputNotEmpty)
  | a => .error (.violation (.notAStatement a.typeName))

/-- The place meant by a position within range. -/
def place (pos : Argument) (i? : Option Nat) : Except Fault Nat :=
  i?.elim (.error (.notAnIndex pos.typeName)) .ok

/-- A new tree comes out of a block. -/
def remove (r : NodeId) (pos : Argument) : Except Fault Effect := do
  let t ← (o r).expect .block
  let i ← place pos (← pos.position o.text t.parts.length false)
  match t.parts[i]? with
  | none => throw .noSuchChild
  | some u => return { reply := .made, changed := [(r,.block (t.parts.eraseIdx i))], made := [u] }

/-- The tree of the argument goes into a block. -/
def add (r : NodeId) (pos a : Argument) : Except Fault Effect := do
  let t ← (o r).expect .block
  let i? ← pos.position o.text t.parts.length true
  let n ← o.given a
  let i ← place pos i?
  return {
    reply := .plain .done
    changed := [(r,.block (t.parts.insertIdx i (o n))),(n,.block [])] }

/-- The outputs become the bodies. -/
def disassemble (g : Guarded) (r : NodeId) (outputs : List Argument) : Except Fault Effect := do
  let t ← (o r).expect g.kind
  let outs ← outputs.mapM o.vacant
  return {
    reply := .plain (.condition t.label.test?)
    changed := (r,.pending g.kind) :: outs.zip t.parts }

/-- The trees of the arguments become the bodies. What the receiver held until then is left to
itself. -/
def assemble (g : Guarded) (r : NodeId) (test : Argument) (bodies : List Argument) :
    Except Fault Effect := do
  (o r).ready g.kind
  let c ← Statement.testOf o.text test
  let ns ← bodies.mapM o.given
  return {
    reply := .plain .done
    changed := (r,.guarded g c (ns.map o)) :: ns.map (·,.block [])
    made := (o r).parts }

def disassembleCall (r : NodeId) : Except Fault Effect := do
  let t ← (o r).expect .call
  return { reply := .plain (.name t.label.name?), changed := [(r,.pending .call)] }

def assembleCall (r : NodeId) (name : Argument) : Except Fault Effect := do
  (o r).ready .call
  match name with
  | .text t => return { reply := .plain .done, changed := [(r,.call t)], made := (o r).parts }
  | a => do throw (.violation (.nameNotText (← a.shown o.text)))

/-- Statements are equal if their trees are. -/
def equal (m n : NodeId) : Except Fault Bool := do
  let t ← (o m).assembled
  let u ← (o n).assembled
  return decide (t = u)

def equalHeld (m n : NodeId) : Except Fault Bool :=
  if m = n then return true else o.equal m n

def equals (a b : Argument) : Except Fault Bool :=
  match a, b with
  | .statement m, .statement n => o.equal m n
  | a, b => a.equalData o.equalHeld b

def equalStatements (a b : Argument) : Except Fault Bool :=
  match a, b with
  | .statement m, .statement n => o.equal m n
  | .statement m, b => do
    let _ ← (o m).assembled
    throw (.lacks b.typeName "kind")
  | a, _ => throw (.lacks a.typeName "kind")

/-- A view that reads off the value of an assembled statement. -/
def view (r : NodeId) (f : Tree → Reply) : Except Fault Effect := do
  let t ← (o r).assembled
  return { reply := f t }

/-- Counting looks at a tree and leaves it as it is. -/
def count (a : Argument) : Except Fault Effect := do
  let n ← a.toStatement "kind"
  o.view n fun t => .plain (.number t.primitives.length)

/-- One command on an orchard. Commands that are not about roots one by one have no step. -/
def step : Command → Except Fault Effect
  | .create | .createLike _ => return { reply := .made, made := [.block []] }
  | .copy r => do
    let t ← (o r).assembled
    return { reply := .made, made := [t] }
  | .child r i => do
    let t ← (o r).assembled
    return { reply := .part (← Store.atIndex t.parts i) }
  | .kind r => o.view r fun t => .plain (.kind t.label.kind)
  | .length r => do
    let t ← (o r).expect .block
    return { reply := .plain (.number t.parts.length) }
  | .remove r pos => o.remove r pos
  | .add r pos a => o.add r pos a
  | .disassembleIf r output => o.disassemble .ifThen r [output]
  | .disassembleIfElse r output₁ output₂ => o.disassemble .ifElse r [output₁,output₂]
  | .disassembleWhile r output => o.disassemble .whileDo r [output]
  | .disassembleCall r => o.disassembleCall r
  | .assembleIf r test body => o.assemble .ifThen r test [body]
  | .assembleIfElse r test body₁ body₂ => o.assemble .ifElse r test [body₁,body₂]
  | .assembleWhile r test body => o.assemble .whileDo r test [body]
  | .assembleCall r name => o.assembleCall r name
  | .children r => o.view r fun t => .parts t.parts
  | .condition r => o.view r fun t => .plain (.condition t.label.test?)
  | .callName r => o.view r fun t => .plain (.name t.label.name?)
  | .size r => o.view r fun t => .plain (.number t.size)
  | .text a => return { reply := .plain (.text (← a.shown o.text)) }
  | .equals a b => return { reply := .plain (.truth (← o.equals a b)) }
  | .differs a b => return { reply := .plain (.truth (!(← o.equals a b))) }
  | .equalStatements a b => return { reply := .plain (.truth (← o.equalStatements a b)) }
  | .count a | .countWalking a => o.count a
  | _ => throw .endless

end Orchard

namespace Command

/-- Operations on single statements, other than adding at a real number, which is no position.
Builders and metrics are made of these. -/
def isKernel : Command → Bool
  | .build _ | .call _ | .block _ | .ifThen .. | .ifElse .. | .whileDo .. | .instructions _ => false
  | .profile _ | .vector _ | .density _ | .table _ => false
  | .add _ (.real _) _ => false
  | _ => true

/-- Every statement handed over is a root, and no two of them are the same. -/
structure OnRoots (s : Store) (c : Command) : Prop where
  kernel : c.isKernel
  nodup : (c.arguments.filterMap Argument.node?).Nodup
  roots : ∀ n ∈ c.arguments.flatMap Argument.nodes, n ∈ s ∧ s.IsRoot n

instance (s : Store) (c : Command) : Decidable (c.OnRoots s) :=
  decidable_of_iff (c.isKernel ∧ (c.arguments.filterMap Argument.node?).Nodup ∧
      ∀ n ∈ c.arguments.flatMap Argument.nodes, n ∈ s ∧ s.IsRoot n)
    ⟨fun ⟨hk,hd,hr⟩ => ⟨hk,hd,hr⟩,fun ⟨hk,hd,hr⟩ => ⟨hk,hd,hr⟩⟩

end Command

/-- Every command of the run is on roots when its turn comes. -/
def RunsOnRoots : Store → List Command → Prop
  | _, [] => True
  | s, c :: cs => c.OnRoots s ∧ ∀ t ∈ c.next? s, RunsOnRoots t cs

instance decidableRunsOnRoots : (s : Store) → (cs : List Command) → Decidable (RunsOnRoots s cs)
  | _, [] => .isTrue trivial
  | s, c :: cs =>
    have : ∀ t, Decidable (RunsOnRoots t cs) := fun t => decidableRunsOnRoots t cs
    inferInstanceAs (Decidable (c.OnRoots s ∧ ∀ t ∈ c.next? s, RunsOnRoots t cs))

/-- All roots are still roots, and the names are those of different new ones. -/
structure NewRoots (s t : Store) (names : List NodeId) : Prop where
  kept : ∀ n ∈ s, s.IsRoot n → t.IsRoot n
  nodup : names.Nodup
  new : ∀ n ∈ names, ¬ (n ∈ s ∧ s.IsRoot n)
  roots : ∀ n ∈ names, n ∈ t ∧ t.IsRoot n

/-- An answer about nodes of `t` says the same as a reply about trees. -/
def Reply.Matches (t : Store) (names : List NodeId) : Reply → Answer → Prop
  | .plain a, b => b = a
  | .made, b => ∃ n ∈ names.head?, b = .made (.statement n)
  | .part u, b => ∃ n, b = .made (.statement n) ∧ t.tree? n = some u
  | .parts us, b => ∃ ns, b = .statements ns ∧ ns.map t.tree? = us.map some

/-- On a run the store answers as the orchard does, and after every step every root holds the tree
that the orchard has for it. What fails in one fails in the other, for the same reason, and changes
nothing. -/
def Agree : Store → Orchard → List Command → Prop
  | _, _, [] => True
  | s, o, c :: cs =>
    match o.step c, c.run s with
    | .ok e, .ok a t => ∃ names, NewRoots s t names ∧ names.length = e.made.length ∧
        e.reply.Matches t names a ∧ (∀ n, t.IsRoot n → t.tree? n = some (o.after e names n)) ∧
        Agree t (o.after e names) cs
    | .error f, .error f' t => f' = f ∧ t = s ∧ Agree s o cs
    | _, _ => False

end RobotCode
