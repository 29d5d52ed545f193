/-! # Kinds of statements

A robot program is a tree of statements of five kinds. The three kinds in `Guarded` carry a test and
a fixed number of bodies; a block holds any number of statements, and a call only a name.
-/
namespace RobotCode

inductive Kind where
  | block | ifThen | ifElse | whileDo | call
  deriving DecidableEq, Repr

/-- The kinds whose bodies run under a test. -/
inductive Guarded where
  | ifThen | ifElse | whileDo
  deriving DecidableEq, Repr

def Guarded.kind : Guarded → Kind
  | .ifThen => .ifThen
  | .ifElse => .ifElse
  | .whileDo => .whileDo

/-- The number of bodies. -/
def Guarded.arity : Guarded → Nat
  | .ifElse => 2
  | _ => 1

theorem Guarded.kind_injective {g h : Guarded} (e : g.kind = h.kind) : g = h := by
  cases g <;> cases h <;> simp_all [Guarded.kind]

theorem Guarded.kind_ne_block (g : Guarded) : g.kind ≠ .block := by
  cases g <;> simp [Guarded.kind]

theorem Guarded.kind_ne_call (g : Guarded) : g.kind ≠ .call := by
  cases g <;> simp [Guarded.kind]

namespace Kind

def name : Kind → String
  | .block => "BLOCK"
  | .ifThen => "IF"
  | .ifElse => "IF_ELSE"
  | .whileDo => "WHILE"
  | .call => "CALL"

def all : List Kind := [.block, .ifThen, .ifElse, .whileDo, .call]

def ofName? (s : String) : Option Kind := all.find? (·.name == s)

theorem ofName?_name (k : Kind) : ofName? k.name = some k := by cases k <;> decide

theorem name_injective {j k : Kind} (h : j.name = k.name) : j = k := by
  have := ofName?_name j
  rw [h, ofName?_name] at this
  exact (Option.some.inj this).symm

end Kind
end RobotCode
