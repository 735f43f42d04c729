import OrderedCompletion.Text.Decimal

/-! Counters of a completion run. -/

namespace OrderedCompletion

/-- Counters are 64-bit words and wrap around. -/
structure Metrics where
  steps : UInt64 := 0
  rulesAdded : UInt64 := 0
  /-- Rules that went back to the worklist because their left side became reducible. -/
  rulesCollapsed : UInt64 := 0
  /-- Right sides that were replaced by their normal form. -/
  rulesComposed : UInt64 := 0
  /-- Equations without direction that were put off. -/
  equationsDeferred : UInt64 := 0
  criticalPairs : UInt64 := 0
  /-- Critical pairs that no equation subsumed. -/
  criticalPairsKept : UInt64 := 0
  reductionPasses : UInt64 := 0
  deriving DecidableEq, Repr, Inhabited

namespace Metrics

def recordStep (m : Metrics) : Metrics := { m with steps := m.steps + 1 }

def recordRuleAdded (m : Metrics) : Metrics := { m with rulesAdded := m.rulesAdded + 1 }

def recordRuleCollapsed (m : Metrics) : Metrics := { m with rulesCollapsed := m.rulesCollapsed + 1 }

def recordRuleComposed (m : Metrics) : Metrics := { m with rulesComposed := m.rulesComposed + 1 }

def recordDeferred (m : Metrics) : Metrics := { m with equationsDeferred := m.equationsDeferred + 1 }

def recordCriticalPairs (m : Metrics) (generated kept : Nat) : Metrics :=
  { m with
    criticalPairs := m.criticalPairs + UInt64.ofNat generated
    criticalPairsKept := m.criticalPairsKept + UInt64.ofNat kept }

def recordReductionPasses (m : Metrics) (n : Nat) : Metrics :=
  { m with reductionPasses := m.reductionPasses + UInt64.ofNat n }

/-- The part of the critical pairs that was kept, zero if there were none. -/
def criticalPairYield (m : Metrics) : Float :=
  if m.criticalPairs = 0 then 0.0 else m.criticalPairsKept.toFloat / m.criticalPairs.toFloat

def text (m : Metrics) : String :=
  let percent := (Text.Dyadic.ofBits (m.criticalPairYield * 100.0).toBits).fixed 1
  "=== Completion Metrics ===\n" ++
  "Steps:              " ++ m.steps.toNat.repr ++ "\n" ++
  "Rules:              " ++ m.rulesAdded.toNat.repr ++ " added, " ++
    m.rulesCollapsed.toNat.repr ++ " collapsed, " ++ m.rulesComposed.toNat.repr ++ " composed\n" ++
  "Deferred equations: " ++ m.equationsDeferred.toNat.repr ++ "\n" ++
  "Critical pairs:     " ++ m.criticalPairs.toNat.repr ++ " (" ++
    m.criticalPairsKept.toNat.repr ++ " kept, " ++ percent ++ "% yield)\n" ++
  "Reduction passes:   " ++ m.reductionPasses.toNat.repr ++ "\n"

end Metrics
end OrderedCompletion
