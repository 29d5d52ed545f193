import RobotCode.Blueprint

/-! # Sample programs

Five small programs that between them use every kind of statement.
-/
namespace RobotCode.Sample

def steps (names : List String) : Blueprint := .instructions (names.map .text)

def programs : List (String × Blueprint) :=
  [("two_steps", steps ["move", "turnleft"]),
   ("guarded_move", .ifThen (.condition .nextIsEmpty) (steps ["move", "foo"])),
   ("infect_loop", .whileDo (.condition .always) (.block
      [.call (.text "infect"),
       .ifElse (.condition .nextIsEnemy) (steps ["skip"]) (steps ["turnright", "bar"])])),
   ("empty", .block []),
   ("skip_or_move", .ifElse (.condition .random) (steps ["skip", "skip"]) (steps ["move"]))]

def build : StoreM (List (String × Argument)) :=
  programs.mapM fun (name, b) => do
    let a ← b.build
    return (name, a)

end RobotCode.Sample
