import RobotCode.Number.Shortest
import RobotCode.Store.View

/-! # Arguments

Operations can be handed anything, and say what they were handed when it is not what they need. An
argument is a statement, a kind, a condition, or a plain datum.
-/
namespace RobotCode

inductive Argument where
  | nothing
  | bool (b : Bool)
  | int (i : Int)
  | real (x : Binary64)
  | text (s : String)
  | list (items : List Argument)
  | mapping (entries : List (String × Argument))
  | kind (k : Kind)
  | condition (c : Condition)
  | statement (n : NodeId)
  deriving Inhabited

namespace Argument

/-- The sort of thing an argument is, as named in messages. -/
def typeName : Argument → String
  | .nothing => "NoneType"
  | .bool _ => "bool"
  | .int _ => "int"
  | .real _ => "float"
  | .text _ => "str"
  | .list _ => "list"
  | .mapping _ => "dict"
  | .kind _ => "Kind"
  | .condition _ => "Condition"
  | .statement _ => "Statement"

mutual
/-- The argument in full, as shown in messages, statements by their text. It cannot be shown if a
statement in it has a text without end. -/
def shown (text : NodeId → Except Fault String) : Argument → Except Fault String
  | .nothing => return "None"
  | .bool b => return if b then "True" else "False"
  | .int i => return toString i
  | .real x => return x.text
  | .text t => return Text.quoted t
  | .list items => return "[" ++ ", ".intercalate (← shownItems text items) ++ "]"
  | .mapping entries => return "\x7b" ++ ", ".intercalate (← shownEntries text entries) ++ "\x7d"
  | .kind k => return "<Kind." ++ k.name ++ ": " ++ Text.quoted k.name ++ ">"
  | .condition c => return "<Condition." ++ c.name ++ ": " ++ Text.quoted c.word ++ ">"
  | .statement n => text n

def shownItems (text : NodeId → Except Fault String) : List Argument → Except Fault (List String)
  | [] => return []
  | a :: items => return (← a.shown text) :: (← shownItems text items)

def shownEntries (text : NodeId → Except Fault String) :
    List (String × Argument) → Except Fault (List String)
  | [] => return []
  | (key, a) :: entries =>
    return (Text.quoted key ++ ": " ++ (← a.shown text)) :: (← shownEntries text entries)
end

/-- Whether the argument can be looked up by its value. -/
def isHashable : Argument → Bool
  | .list _ | .mapping _ | .statement _ => false
  | _ => true

/-- The number that an argument stands for, as numerator and denominator; truth values count as 0
and 1. -/
def ratio? : Argument → Option (Int × Nat)
  | .bool b => some (if b then 1 else 0, 1)
  | .int i => some (i, 1)
  | .real x => x.toRatio?
  | _ => none

/-- Whether two plain data are the same by value. Numbers of different sorts can be. -/
def equalPlain : Argument → Argument → Bool
  | .nothing, .nothing => true
  | .text s, .text t => s = t
  | .kind j, .kind k => j = k
  | .condition c, .condition d => c = d
  | .real (.infinite r), .real (.infinite s) => r = s
  | a, b =>
    match a.ratio?, b.ratio? with
    | some (m, d), some (n, e) => m * e = n * d
    | _, _ => false

mutual
/-- Whether two arguments are the same, statements as `equal` has it. Lists and mappings of one
length are compared up to the first difference; the order of the entries of a mapping does not
matter. -/
def equalData (equal : NodeId → NodeId → Except Fault Bool) :
    Argument → Argument → Except Fault Bool
  | .statement m, .statement n => equal m n
  | .list xs, .list ys => if xs.length = ys.length then equalItems equal xs ys else return false
  | .mapping es, .mapping fs =>
    if es.length = fs.length then equalEntries equal es fs else return false
  | a, b => return a.equalPlain b

def equalItems (equal : NodeId → NodeId → Except Fault Bool) :
    List Argument → List Argument → Except Fault Bool
  | x :: xs, y :: ys => do
    if ← equalData equal x y then equalItems equal xs ys else return false
  | _, _ => return true

def equalEntries (equal : NodeId → NodeId → Except Fault Bool) :
    List (String × Argument) → List (String × Argument) → Except Fault Bool
  | [], _ => return true
  | (key, a) :: es, fs =>
    match fs.lookup key with
    | some b => do
      if ← equalData equal a b then equalEntries equal es fs else return false
    | none => return false
end

/-- Only what stays as it is can be looked up. -/
def requireHashable (a : Argument) : Except Fault Unit :=
  if a.isHashable then .ok () else .error (.notHashable a.typeName)

/-- The statement handed over, asked for something that only statements have. -/
def toStatement (member : String) : Argument → Except Fault NodeId
  | .statement n => .ok n
  | a => .error (.lacks a.typeName member)

/-- A position among `length` places, the end counting as one more if `closed`. A real number has an
order among the whole ones but names no place: it is `none` within the range. -/
def position (text : NodeId → Except Fault String) (length : Nat) (closed : Bool) (a : Argument) :
    Except Fault (Option Nat) :=
  let outside := do throw (.violation (.outOfRange (← a.shown text) length))
  let whole (i : Int) :=
    if 0 ≤ i ∧ (i < length ∨ closed ∧ i = length) then .ok (some i.toNat) else outside
  match a with
  | .int i => whole i
  | .bool b => whole (if b then 1 else 0)
  | .real x => if x.within length closed then .ok none else outside
  | a => .error (.notOrdered a.typeName)

/-- Whether the argument is the name of a primitive instruction. -/
def isPrimitive : Argument → Except Fault Bool
  | .text t => .ok (Primitive.isPrimitive t)
  | a => do
    a.requireHashable
    return false

/-- The member of a family that an argument is, or that has the given text. -/
def member (s : Store) (family : String) (self? : Argument → Option α) (ofText? : String → Option α)
    (a : Argument) : Except Fault α :=
  let found := match a with
    | .text t => ofText? t
    | a => self? a
  match found with
  | some x => return x
  | none => do throw (.notAMember (← a.shown s.text) family)

/-- The kind with the given name, a kind being its own. -/
def toKind (s : Store) : Argument → Except Fault Kind :=
  member s "Kind" (fun | .kind k => some k | _ => none) Kind.ofName?

/-- The condition with the given word, a condition being its own. -/
def toCondition (s : Store) : Argument → Except Fault Condition :=
  member s "Condition" (fun | .condition c => some c | _ => none) Condition.ofWord?

/-- A look-up by name; an argument that is no name at all is still an unknown one. -/
def named (s : Store) (ofName? : String → Option α) (a : Argument) : Except Fault α := do
  a.requireHashable
  let found := match a with
    | .text t => ofName? t
    | _ => none
  match found with
  | some x => return x
  | none => throw (.unknownName (← a.shown s.text))

end Argument
end RobotCode
