import RobotCode.Report
import RobotCode.Sample

/-! # Command line

Reports on the sample programs, and writes the table into a directory of results. The chart that the
report names is for a plotting library to draw.
-/
namespace RobotCode

def resultDirectory : String := "results/primitive_counts"

def writeResults (t : Table) : IO Unit := do
  IO.FS.createDirAll resultDirectory
  IO.FS.writeFile (resultDirectory ++ "/" ++ Report.tableFile) t.csv

def reportOnSamples : Report :=
  match Sample.build {} with
  | .ok programs s => Report.of resultDirectory programs s
  | .error e s => ⟨Report.opening, .error e, s⟩

end RobotCode

def main : IO UInt32 := do
  let report := RobotCode.reportOnSamples
  match report.table with
  | .ok t =>
    RobotCode.writeResults t
    IO.print report.shown
    return 0
  | .error e =>
    IO.print report.shown
    IO.eprintln e.message
    return 1
