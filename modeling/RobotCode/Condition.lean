/-! # Tests of guarded statements

What the robot can ask of its surroundings. Each test has a name, by which programs are written
down, and a word, the spelling used by the robot itself.
-/
namespace RobotCode

inductive Condition where
  | nextIsEmpty | nextIsNotEmpty
  | nextIsWall | nextIsNotWall
  | nextIsFriend | nextIsNotFriend
  | nextIsEnemy | nextIsNotEnemy
  | random | always
  deriving DecidableEq, Repr

namespace Condition

def name : Condition → String
  | .nextIsEmpty => "NEXT_IS_EMPTY"
  | .nextIsNotEmpty => "NEXT_IS_NOT_EMPTY"
  | .nextIsWall => "NEXT_IS_WALL"
  | .nextIsNotWall => "NEXT_IS_NOT_WALL"
  | .nextIsFriend => "NEXT_IS_FRIEND"
  | .nextIsNotFriend => "NEXT_IS_NOT_FRIEND"
  | .nextIsEnemy => "NEXT_IS_ENEMY"
  | .nextIsNotEnemy => "NEXT_IS_NOT_ENEMY"
  | .random => "RANDOM"
  | .always => "TRUE"

def word : Condition → String
  | .nextIsEmpty => "next-is-empty"
  | .nextIsNotEmpty => "next-is-not-empty"
  | .nextIsWall => "next-is-wall"
  | .nextIsNotWall => "next-is-not-wall"
  | .nextIsFriend => "next-is-friend"
  | .nextIsNotFriend => "next-is-not-friend"
  | .nextIsEnemy => "next-is-enemy"
  | .nextIsNotEnemy => "next-is-not-enemy"
  | .random => "random"
  | .always => "true"

def all : List Condition :=
  [.nextIsEmpty, .nextIsNotEmpty, .nextIsWall, .nextIsNotWall, .nextIsFriend, .nextIsNotFriend,
    .nextIsEnemy, .nextIsNotEnemy, .random, .always]

def ofName? (s : String) : Option Condition := all.find? (·.name == s)

def ofWord? (s : String) : Option Condition := all.find? (·.word == s)

theorem ofName?_name (c : Condition) : ofName? c.name = some c := by cases c <;> decide

theorem name_injective {c d : Condition} (h : c.name = d.name) : c = d := by
  have := ofName?_name c
  rw [h, ofName?_name] at this
  exact (Option.some.inj this).symm

end Condition
end RobotCode
