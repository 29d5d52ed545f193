import RobotCode.Metrics.Table

/-! # Summaries

A table for reading: every column is flush right, one space lies between columns, and the names of
columns of numbers have one more space in front. Densities have three places less the closing zeros
that all of them share, one place being kept.
-/
namespace RobotCode.Table

def padLeft (width : Nat) (s : String) : String :=
  "".pushn ' ' (width - s.length) ++ s

def threePlaces (thousandths : Nat) : List Char :=
  let ds := Nat.toDigits 10 (thousandths % 1000)
  Nat.toDigits 10 (thousandths / 1000) ++ '.' :: (List.replicate (3 - ds.length) '0' ++ ds)

/-- How many closing zeros can go. -/
def sharedZeros (cells : List (List Char)) : Nat :=
  (cells.map fun c => (c.reverse.takeWhile (· = '0')).length).foldl min 2

def densities (t : Table) : List String :=
  let cells := t.map fun r => threePlaces r.density.thousandths
  let cut := sharedZeros cells
  cells.map fun c => String.ofList (c.take (c.length - cut))

/-- Control characters that would break a line are spelt out. -/
def lineSafe (s : String) : String :=
  String.ofList (s.toList.flatMap fun c =>
    if c = '\n' then ['\x5c', 'n'] else if c = '\r' then ['\x5c', 'r']
    else if c = '\t' then ['\x5c', 't'] else [c])

def headings : List String := "name" :: numericColumns.map (" " ++ ·)

def cells (t : Table) : List (List String) :=
  t.zipWith (fun r density => lineSafe r.name :: (numbers r).map toString ++ [density])
    (densities t)

def summary (t : Table) : String :=
  let lines := headings :: cells t
  let widths := lines.foldl (fun ws cs => ws.zipWith (fun w c => max w c.length) cs)
    (columns.map fun _ => 0)
  "\n".intercalate (lines.map fun cs => " ".intercalate (widths.zipWith padLeft cs))

end RobotCode.Table
