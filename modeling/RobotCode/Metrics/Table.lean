import RobotCode.Metrics.Profile
import RobotCode.Metrics.Density

/-! # Tables

Several named programs side by side, a row for each, with the calls to every primitive instruction,
their total, the number of nodes and the density.
-/
namespace RobotCode

/-- Entries in order of first appearance; a key that comes again takes the new value in its old
place. -/
def enter [DecidableEq κ] (entries : List (κ × α)) (key : κ) (value : α) : List (κ × α) :=
  match entries with
  | [] => [(key, value)]
  | (k, v) :: rest => if k = key then (key, value) :: rest else (k, v) :: enter rest key value

def entries [DecidableEq κ] (pairs : List (κ × α)) : List (κ × α) :=
  pairs.foldl (fun es p => enter es p.1 p.2) []

structure Row where
  name : String
  /-- Calls to each primitive, in the order of reports. -/
  vector : List Nat
  total : Nat
  nodes : Nat
  deriving DecidableEq, Repr

abbrev Table := List Row

namespace Row

def density (r : Row) : Density := ⟨r.total, r.nodes⟩

/-- The vector comes first, then the count that takes the program apart, then the number of nodes.
-/
def of (name : String) (a : Argument) : StoreM Row := do
  let f ← Profile.of a
  let total ← Tally.count a
  let nodes ← StoreM.ask fun s => do s.sizeOf (← a.toStatement "num_nodes")
  return ⟨name, f.vector, total, nodes⟩

end Row

namespace Table

/-- What is written in numbers after the name of a program. -/
def numericColumns : List String :=
  Primitive.all.map Primitive.name ++ ["total", "num_nodes", "density"]

def columns : List String := "name" :: numericColumns

def of (programs : List (String × Argument)) : StoreM Table :=
  (entries programs).mapM fun (name, a) => Row.of name a

def separator (c : Char) : Bool := c = ',' ∨ c = '\x22' ∨ c = '\n'

/-- A field of a line, quoted if it holds a separator or a quote; a quote inside is written twice.
-/
def field (s : String) : String :=
  let cs := s.toList
  if cs.any separator then
    let doubled := cs.flatMap fun c => if c = '\x22' then ['\x22', '\x22'] else [c]
    String.ofList ('\x22' :: doubled ++ ['\x22'])
  else s

def numbers (r : Row) : List Nat := r.vector ++ [r.total, r.nodes]

/-- Lines of fields with commas between them, the names of the columns first. -/
def csv (t : Table) : String :=
  let line (fields : List String) := ",".intercalate fields ++ "\n"
  let row (r : Row) := line (field r.name :: (numbers r).map toString ++ [r.density.text])
  line columns ++ String.join (t.map row)

end Table
end RobotCode
