import RobotCode.Metrics.Summary

/-! # Reports

A report tabulates programs, files the table, and shows a summary of it. What has been shown when it
fails stays shown. A listing of statements shows their texts, and a mark for one that has no end.
-/
namespace RobotCode

/-- How a text is listed. Operations fail where there is no text; a listing goes on. -/
def listed : Except Fault String → String
  | .ok t => t
  | .error _ => "<cyclic>"

instance : Coe (Except Fault String) String := ⟨listed⟩

structure Report where
  shown : String
  table : Except Fault Table
  store : Store

namespace Report

def tableFile : String := "primitive_counts.csv"

def chartFile : String := "primitive_counts.png"

def heading (title : String) : String :=
  let rule := "".pushn '=' 60
  rule ++ "\n" ++ title ++ "\n" ++ rule ++ "\n"

def opening : String := heading "Counting Primitive Calls"

def progress (n : Nat) : String := "Analyzing " ++ toString n ++ " programs...\n"

def closing (directory : String) (t : Table) : String :=
  "\nResults saved to: " ++ directory ++ "/" ++ tableFile ++ "\n\n" ++ heading "SUMMARY" ++
    t.summary ++ "\n\nGenerating plot...\nPlot saved to: " ++ directory ++ "/" ++ chartFile ++
    "\n\n" ++ heading "COMPLETE"

def of (directory : String) (programs : List (String × Argument)) (s : Store) : Report :=
  let programs := entries programs
  if programs = [] then ⟨opening, .error .noPrograms, s⟩
  else
    let begun := opening ++ progress programs.length
    match Table.of programs s with
    | .ok t s => ⟨begun ++ closing directory t, .ok t, s⟩
    | .error e s => ⟨begun, .error e, s⟩

end Report
end RobotCode
