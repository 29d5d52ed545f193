import RobotCode.Command
import RobotCode.Main
import RobotCode.Proofs.Steps
import RobotCode.Report
import RobotCode.Sample
import RobotCode.Tree
import RobotCode.Proofs.Builders
import RobotCode.Proofs.Copies
import RobotCode.Proofs.Tallies
import RobotCode.Proofs.Reachable
import RobotCode.Proofs.Effects
import RobotCode.Proofs.Footprint
import RobotCode.Proofs.Recount
import RobotCode.Proofs.Views
import RobotCode.Proofs.Orchard
import RobotCode.Proofs.Mirrors.Basic
import RobotCode.Proofs.Mirrors.Block
import RobotCode.Proofs.Mirrors.Guarded
import RobotCode.Proofs.Simulation.Checks
import RobotCode.Proofs.Simulation
import RobotCode.Proofs.Outputs
import RobotCode.Proofs.Agreement
import RobotCode.Proofs.Pending
import RobotCode.Proofs.Separation
import RobotCode.Proofs.Legible
import RobotCode.Proofs.Tabulation
import RobotCode.Proofs.Places
import RobotCode.Proofs.Renewal
import RobotCode.Proofs.Composition
import RobotCode.Proofs.RoundTrip
import RobotCode.Proofs.Atomic
import RobotCode.Proofs.Misplaced
import RobotCode.Proofs.Measures
import RobotCode.Proofs.Insertion
import RobotCode.Proofs.Orders
import RobotCode.Proofs.Records
import RobotCode.Proofs.Occurrences
import RobotCode.Proofs.Lockstep
import RobotCode.Proofs.Refusals
import RobotCode.Proofs.FullTables
import RobotCode.Proofs.Gathering
import RobotCode.Proofs.Exhaustion
import RobotCode.Proofs.Shares
import RobotCode.Proofs.Sequences.Basic
import RobotCode.Proofs.Sequences.Count
import RobotCode.Proofs.Sequences
import RobotCode.Proofs.Kinds
