import OrderedCompletion.Console.Basic
import OrderedCompletion.Console.Command
import OrderedCompletion.Console.Dialogue
import OrderedCompletion.Engine.Config
import OrderedCompletion.Engine.Error
import OrderedCompletion.Engine.Query
import OrderedCompletion.Engine.State
import OrderedCompletion.Engine.Step
import OrderedCompletion.Equation
import OrderedCompletion.Index
import OrderedCompletion.Main
import OrderedCompletion.Matching
import OrderedCompletion.Metrics
import OrderedCompletion.Order.Basic
import OrderedCompletion.Order.Kbo
import OrderedCompletion.Order.Lpo
import OrderedCompletion.Order.Precedence
import OrderedCompletion.Proofs.Absence
import OrderedCompletion.Proofs.Actions
import OrderedCompletion.Proofs.Agreement
import OrderedCompletion.Proofs.Answers
import OrderedCompletion.Proofs.BareLines
import OrderedCompletion.Proofs.Bookkeeping
import OrderedCompletion.Proofs.Boundaries
import OrderedCompletion.Proofs.ByteReader
import OrderedCompletion.Proofs.Calls
import OrderedCompletion.Proofs.Ceilings
import OrderedCompletion.Proofs.Chains
import OrderedCompletion.Proofs.Completeness
import OrderedCompletion.Proofs.Composition
import OrderedCompletion.Proofs.Confined
import OrderedCompletion.Proofs.Confluence
import OrderedCompletion.Proofs.Conservation
import OrderedCompletion.Proofs.Console
import OrderedCompletion.Proofs.Coverage
import OrderedCompletion.Proofs.CriticalPairs
import OrderedCompletion.Proofs.CriticalPeaks
import OrderedCompletion.Proofs.Cutting
import OrderedCompletion.Proofs.Direction
import OrderedCompletion.Proofs.Divergence
import OrderedCompletion.Proofs.EarlyAnswers
import OrderedCompletion.Proofs.EarlyBuilding
import OrderedCompletion.Proofs.EarlyNotes
import OrderedCompletion.Proofs.EarlyQuestions
import OrderedCompletion.Proofs.Effects
import OrderedCompletion.Proofs.EngineActions
import OrderedCompletion.Proofs.Equational
import OrderedCompletion.Proofs.Evolution
import OrderedCompletion.Proofs.Freezing
import OrderedCompletion.Proofs.Freshness
import OrderedCompletion.Proofs.FrozenOrders
import OrderedCompletion.Proofs.Fuel
import OrderedCompletion.Proofs.Gauge
import OrderedCompletion.Proofs.Grammar
import OrderedCompletion.Proofs.GroundCompleteness
import OrderedCompletion.Proofs.GroundDecision
import OrderedCompletion.Proofs.GroundOrder
import OrderedCompletion.Proofs.GroundReduction
import OrderedCompletion.Proofs.GroundSteps
import OrderedCompletion.Proofs.GroundTermination
import OrderedCompletion.Proofs.Growth
import OrderedCompletion.Proofs.Guarding
import OrderedCompletion.Proofs.Interning
import OrderedCompletion.Proofs.Interreduced
import OrderedCompletion.Proofs.Interreduction
import OrderedCompletion.Proofs.Interruption
import OrderedCompletion.Proofs.Judging
import OrderedCompletion.Proofs.Kbo
import OrderedCompletion.Proofs.KboLaws
import OrderedCompletion.Proofs.KnuthBendix
import OrderedCompletion.Proofs.LeastUnifiers
import OrderedCompletion.Proofs.Lexicographic
import OrderedCompletion.Proofs.Lifecycle
import OrderedCompletion.Proofs.Listing
import OrderedCompletion.Proofs.Lpo
import OrderedCompletion.Proofs.Matchers
import OrderedCompletion.Proofs.Matching
import OrderedCompletion.Proofs.Measure
import OrderedCompletion.Proofs.NodeCounts
import OrderedCompletion.Proofs.NormalForms
import OrderedCompletion.Proofs.Normalization
import OrderedCompletion.Proofs.Numbering
import OrderedCompletion.Proofs.Omission
import OrderedCompletion.Proofs.Outcomes
import OrderedCompletion.Proofs.Pace
import OrderedCompletion.Proofs.Parallel
import OrderedCompletion.Proofs.Passes
import OrderedCompletion.Proofs.PathOrder
import OrderedCompletion.Proofs.Peaks
import OrderedCompletion.Proofs.Position
import OrderedCompletion.Proofs.Precedence
import OrderedCompletion.Proofs.Preservation
import OrderedCompletion.Proofs.Printing
import OrderedCompletion.Proofs.Progress
import OrderedCompletion.Proofs.Ranking
import OrderedCompletion.Proofs.Reading
import OrderedCompletion.Proofs.Recording
import OrderedCompletion.Proofs.Reduced
import OrderedCompletion.Proofs.Reduction
import OrderedCompletion.Proofs.Refusals
import OrderedCompletion.Proofs.Renaming
import OrderedCompletion.Proofs.Replay
import OrderedCompletion.Proofs.Replacement
import OrderedCompletion.Proofs.Rest
import OrderedCompletion.Proofs.Rewriting
import OrderedCompletion.Proofs.Runs
import OrderedCompletion.Proofs.Sharing
import OrderedCompletion.Proofs.Shortage
import OrderedCompletion.Proofs.Shrinking
import OrderedCompletion.Proofs.Simplification
import OrderedCompletion.Proofs.Sizes
import OrderedCompletion.Proofs.Slots
import OrderedCompletion.Proofs.Spending
import OrderedCompletion.Proofs.Stability
import OrderedCompletion.Proofs.Store
import OrderedCompletion.Proofs.StoreActions
import OrderedCompletion.Proofs.Substitution
import OrderedCompletion.Proofs.Superposition
import OrderedCompletion.Proofs.Supply
import OrderedCompletion.Proofs.Survivors
import OrderedCompletion.Proofs.Symbols
import OrderedCompletion.Proofs.System
import OrderedCompletion.Proofs.Terms
import OrderedCompletion.Proofs.Thawing
import OrderedCompletion.Proofs.Tidiness
import OrderedCompletion.Proofs.Tracking
import OrderedCompletion.Proofs.Triangular
import OrderedCompletion.Proofs.TwinChecks
import OrderedCompletion.Proofs.TwinDraws
import OrderedCompletion.Proofs.TwinEngine
import OrderedCompletion.Proofs.TwinReduction
import OrderedCompletion.Proofs.TwinSteps
import OrderedCompletion.Proofs.TwinSuperposition
import OrderedCompletion.Proofs.TwinTexts
import OrderedCompletion.Proofs.Twins
import OrderedCompletion.Proofs.Unification
import OrderedCompletion.Proofs.Unifiers
import OrderedCompletion.Proofs.Verdict
import OrderedCompletion.Reduction
import OrderedCompletion.Slots
import OrderedCompletion.Store.Basic
import OrderedCompletion.Store.Freeze
import OrderedCompletion.Store.Position
import OrderedCompletion.Store.Vars
import OrderedCompletion.Subst
import OrderedCompletion.Superposition
import OrderedCompletion.Supply
import OrderedCompletion.Symbol
import OrderedCompletion.Term.Basic
import OrderedCompletion.Term.Error
import OrderedCompletion.Term.Expr
import OrderedCompletion.Term.Printer
import OrderedCompletion.Term.Reader
import OrderedCompletion.Text.Decimal
import OrderedCompletion.Text.Line
import OrderedCompletion.Text.Sort
import OrderedCompletion.Text.White
import OrderedCompletion.Unification
import OrderedCompletion.Workspace
