import TemporalPlanning.Arithmetic.Expression
import TemporalPlanning.Arithmetic.Operation
import TemporalPlanning.CommandLine.Arguments
import TemporalPlanning.CommandLine.Run
import TemporalPlanning.Decimal.Reading
import TemporalPlanning.Decimal.Shortest
import TemporalPlanning.Decimal.Text
import TemporalPlanning.Encoding.Construct
import TemporalPlanning.Encoding.Encode
import TemporalPlanning.Encoding.Initial
import TemporalPlanning.Encoding.Placement
import TemporalPlanning.Error
import TemporalPlanning.FiniteDomain.ActionIndex
import TemporalPlanning.FiniteDomain.Basic
import TemporalPlanning.FiniteDomain.Cost
import TemporalPlanning.FiniteDomain.Expression
import TemporalPlanning.FiniteDomain.Format
import TemporalPlanning.FiniteDomain.PermanentMutex
import TemporalPlanning.FiniteDomain.Task
import TemporalPlanning.FiniteDomain.Text
import TemporalPlanning.FiniteDomain.Variable
import TemporalPlanning.Form
import TemporalPlanning.Grounded.Basic
import TemporalPlanning.Grounded.Evaluation
import TemporalPlanning.Grounded.Form
import TemporalPlanning.Grounded.Format
import TemporalPlanning.Grounded.Text
import TemporalPlanning.Grounding.Instance
import TemporalPlanning.Grounding.Matching
import TemporalPlanning.Grounding.Quantifier
import TemporalPlanning.Grounding.Saturation
import TemporalPlanning.Grounding.State
import TemporalPlanning.Grounding.Statics
import TemporalPlanning.Identifier
import TemporalPlanning.Json.Basic
import TemporalPlanning.Json.Format
import TemporalPlanning.Json.Reader
import TemporalPlanning.Json.Writer
import TemporalPlanning.Lifted.Basic
import TemporalPlanning.Lifted.Format
import TemporalPlanning.Lifted.Hierarchy
import TemporalPlanning.Lifted.Validation
import TemporalPlanning.Main
import TemporalPlanning.Mutex.Fixpoint
import TemporalPlanning.Mutex.Graph
import TemporalPlanning.Options
import TemporalPlanning.Proofs.Comparison
import TemporalPlanning.Proofs.Encoding.ClosedPlaces
import TemporalPlanning.Proofs.Encoding.Collisions
import TemporalPlanning.Proofs.Encoding.Construct
import TemporalPlanning.Proofs.Encoding.Effects
import TemporalPlanning.Proofs.Encoding.Evaluation
import TemporalPlanning.Proofs.Encoding.Frames
import TemporalPlanning.Proofs.Encoding.Goals
import TemporalPlanning.Proofs.Encoding.Groups
import TemporalPlanning.Proofs.Encoding.InitialState
import TemporalPlanning.Proofs.Encoding.InitialValues
import TemporalPlanning.Proofs.Encoding.Kinds
import TemporalPlanning.Proofs.Encoding.Literals
import TemporalPlanning.Proofs.Encoding.Meaning
import TemporalPlanning.Proofs.Encoding.MutexFacts
import TemporalPlanning.Proofs.Encoding.Negated
import TemporalPlanning.Proofs.Encoding.Opposites
import TemporalPlanning.Proofs.Encoding.Packing
import TemporalPlanning.Proofs.Encoding.Placement
import TemporalPlanning.Proofs.Encoding.References
import TemporalPlanning.Proofs.Encoding.Simulation
import TemporalPlanning.Proofs.Encoding.Situations
import TemporalPlanning.Proofs.Exact
import TemporalPlanning.Proofs.Execution
import TemporalPlanning.Proofs.Expression
import TemporalPlanning.Proofs.FiniteDomain.Chains
import TemporalPlanning.Proofs.FiniteDomain.ClosedTables
import TemporalPlanning.Proofs.FiniteDomain.Creation
import TemporalPlanning.Proofs.FiniteDomain.CurrentNumbers
import TemporalPlanning.Proofs.FiniteDomain.Derived
import TemporalPlanning.Proofs.FiniteDomain.Failures
import TemporalPlanning.Proofs.FiniteDomain.FixedCosts
import TemporalPlanning.Proofs.FiniteDomain.FixedDurations
import TemporalPlanning.Proofs.FiniteDomain.Frames
import TemporalPlanning.Proofs.FiniteDomain.Histories
import TemporalPlanning.Proofs.FiniteDomain.InitialValues
import TemporalPlanning.Proofs.FiniteDomain.Leftovers
import TemporalPlanning.Proofs.FiniteDomain.NumericRuns
import TemporalPlanning.Proofs.FiniteDomain.Operations
import TemporalPlanning.Proofs.FiniteDomain.PackableTables
import TemporalPlanning.Proofs.FiniteDomain.PermanentMutex
import TemporalPlanning.Proofs.FiniteDomain.References
import TemporalPlanning.Proofs.FiniteDomain.Requirers
import TemporalPlanning.Proofs.FiniteDomain.Runs
import TemporalPlanning.Proofs.FiniteDomain.Tables
import TemporalPlanning.Proofs.FiniteDomain.Truth
import TemporalPlanning.Proofs.FiniteDomain.Updates
import TemporalPlanning.Proofs.FlatTables
import TemporalPlanning.Proofs.Grounding.Accounting
import TemporalPlanning.Proofs.Grounding.Arrangement
import TemporalPlanning.Proofs.Grounding.Ascending
import TemporalPlanning.Proofs.Grounding.Closure
import TemporalPlanning.Proofs.Grounding.Constants
import TemporalPlanning.Proofs.Grounding.Contents
import TemporalPlanning.Proofs.Grounding.Coverage
import TemporalPlanning.Proofs.Grounding.Derivation
import TemporalPlanning.Proofs.Grounding.Elimination
import TemporalPlanning.Proofs.Grounding.Goals
import TemporalPlanning.Proofs.Grounding.Guarded.Elimination
import TemporalPlanning.Proofs.Grounding.Guarded.Goals
import TemporalPlanning.Proofs.Grounding.Guarded.Ground
import TemporalPlanning.Proofs.Grounding.Guarded.Instances
import TemporalPlanning.Proofs.Grounding.Guarded.Lookups
import TemporalPlanning.Proofs.Grounding.Guarded.Matching
import TemporalPlanning.Proofs.Grounding.Guarded.Saturation
import TemporalPlanning.Proofs.Grounding.Guarded.Statics
import TemporalPlanning.Proofs.Grounding.Guarded.Steps
import TemporalPlanning.Proofs.Grounding.Guarded.Types
import TemporalPlanning.Proofs.Grounding.Instances
import TemporalPlanning.Proofs.Grounding.LeastBindings
import TemporalPlanning.Proofs.Grounding.LevelLoop
import TemporalPlanning.Proofs.Grounding.Levels
import TemporalPlanning.Proofs.Grounding.LiftedGoals
import TemporalPlanning.Proofs.Grounding.Literals
import TemporalPlanning.Proofs.Grounding.Matching
import TemporalPlanning.Proofs.Grounding.OperandOrder
import TemporalPlanning.Proofs.Grounding.Order
import TemporalPlanning.Proofs.Grounding.Quantifier
import TemporalPlanning.Proofs.Grounding.Reaching
import TemporalPlanning.Proofs.Grounding.Remainder
import TemporalPlanning.Proofs.Grounding.Removal
import TemporalPlanning.Proofs.Grounding.Renaming
import TemporalPlanning.Proofs.Grounding.Renumbering
import TemporalPlanning.Proofs.Grounding.Reordering
import TemporalPlanning.Proofs.Grounding.Resolution
import TemporalPlanning.Proofs.Grounding.Scope
import TemporalPlanning.Proofs.Grounding.ScopedActions
import TemporalPlanning.Proofs.Grounding.SemiNaive
import TemporalPlanning.Proofs.Grounding.SingleEffects
import TemporalPlanning.Proofs.Grounding.Statics
import TemporalPlanning.Proofs.Grounding.Steps
import TemporalPlanning.Proofs.Grounding.Substitution
import TemporalPlanning.Proofs.Grounding.Symbolic
import TemporalPlanning.Proofs.Grounding.SymbolicExpressions
import TemporalPlanning.Proofs.Grounding.Table
import TemporalPlanning.Proofs.Grounding.Tracking
import TemporalPlanning.Proofs.Grounding.Validity
import TemporalPlanning.Proofs.Grounding.WellFormed
import TemporalPlanning.Proofs.Json.GroundedTasks
import TemporalPlanning.Proofs.Json.LiftedTasks
import TemporalPlanning.Proofs.Json.Lossless
import TemporalPlanning.Proofs.Mutex.Application
import TemporalPlanning.Proofs.Mutex.Bitmap
import TemporalPlanning.Proofs.Mutex.Changes
import TemporalPlanning.Proofs.Mutex.Cliques
import TemporalPlanning.Proofs.Mutex.Closure
import TemporalPlanning.Proofs.Mutex.Components
import TemporalPlanning.Proofs.Mutex.Convergence
import TemporalPlanning.Proofs.Mutex.Cover
import TemporalPlanning.Proofs.Mutex.Cuts
import TemporalPlanning.Proofs.Mutex.Evidence
import TemporalPlanning.Proofs.Mutex.Histories
import TemporalPlanning.Proofs.Mutex.LinkCounts
import TemporalPlanning.Proofs.Mutex.Links
import TemporalPlanning.Proofs.Mutex.Marks
import TemporalPlanning.Proofs.Mutex.Members
import TemporalPlanning.Proofs.Mutex.Pairs
import TemporalPlanning.Proofs.Mutex.PassBound
import TemporalPlanning.Proofs.Mutex.Progress
import TemporalPlanning.Proofs.Mutex.Soundness
import TemporalPlanning.Proofs.Mutex.Splitting
import TemporalPlanning.Proofs.Outcome
import TemporalPlanning.Proofs.Registry
import TemporalPlanning.Proofs.Satisfaction
import TemporalPlanning.Proofs.Scope
import TemporalPlanning.Proofs.Subtypes
import TemporalPlanning.Proofs.Truth
import TemporalPlanning.Proofs.TypeMatrix
import TemporalPlanning.Proofs.Values
import TemporalPlanning.Registry
