import OrderedCompletion.Reduction

/-! Policy and budgets of a completion run. -/

namespace OrderedCompletion

structure Config where
  /-- Keep equations without direction instead of failing on them. -/
  unfailing : Bool := true
  /-- Put the worklist in order after each step. -/
  sortWorklist : Bool := true
  /-- Steps that one call may take. -/
  maxSteps : Option Nat := some 10000
  /-- Milliseconds that one call may take. -/
  timeLimit : Option Nat := none
  maxReductionPasses : Nat := 10000
  /-- Nodes that a term may gain in one normalization. -/
  maxTermGrowth : Nat := defaultGrowth
  deriving DecidableEq, Repr, Inhabited

end OrderedCompletion
