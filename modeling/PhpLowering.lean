import PhpLowering.Code.Journal
import PhpLowering.Code.Listing
import PhpLowering.Proofs.Acceptance
import PhpLowering.Proofs.Analysis.Folding
import PhpLowering.Proofs.CallOrder
import PhpLowering.Proofs.Constants
import PhpLowering.Proofs.Exits
import PhpLowering.Proofs.Reporting
import PhpLowering.Proofs.Stores
import PhpLowering.Tree.Builder
import PhpLowering.Proofs.Code.Machine
import PhpLowering.Proofs.Code.Stretch
import PhpLowering.Proofs.Lowering.Operands
import PhpLowering.Proofs.Lowering.Halves
import PhpLowering.Proofs.Analysis.Turns
import PhpLowering.Proofs.Analysis.Reachability
import PhpLowering.Proofs.DeadCode
import PhpLowering.Proofs.Analysis.Encounters
import PhpLowering.Proofs.Entrances
import PhpLowering.Proofs.Code.Confinement
import PhpLowering.Proofs.Lowering.Layout
import PhpLowering.Proofs.Lowering.Leaving
import PhpLowering.Proofs.Lowering.Tries
import PhpLowering.Proofs.Regions
import PhpLowering.Proofs.Updates
import PhpLowering.Proofs.Slots
import PhpLowering.Proofs.SlotOrder
import PhpLowering.Proofs.ComputedJumps
import PhpLowering.Proofs.Levels
import PhpLowering.Proofs.Isolation
import PhpLowering.Proofs.Code.RegionTable
import PhpLowering.Proofs.Code.Refusal
import PhpLowering.Proofs.ReportingOptions
import PhpLowering.Proofs.Hoisting
import PhpLowering.Proofs.Resolution
import PhpLowering.Proofs.Analysis.Revival
import PhpLowering.Proofs.Analysis.Runs
import PhpLowering.Proofs.Concatenation
import PhpLowering.Proofs.Destructuring
import PhpLowering.Proofs.Analysis.Descent
import PhpLowering.Proofs.Analysis.Wants
import PhpLowering.Proofs.CopyOnStore
import PhpLowering.Proofs.Quietness
import PhpLowering.Proofs.CatchDispatch
import PhpLowering.Proofs.Analysis.DeadRegions
import PhpLowering.Proofs.Analysis.LabelEvents
import PhpLowering.Proofs.Code.Interning
import PhpLowering.Proofs.Declarations
import PhpLowering.Proofs.Capacities
import PhpLowering.Proofs.Allocation
import PhpLowering.Proofs.BranchTargets
import PhpLowering.Proofs.Literal.Integers
import PhpLowering.Proofs.Literal.Identical
import PhpLowering.Proofs.Source.Lines
import PhpLowering.Proofs.Returns
