/-! Failures of a completion run, each with the equations and rules of the moment. -/

namespace OrderedCompletion

/-- Equations and rules as text. -/
structure Snapshot where
  equations : List String := []
  rules : List String := []
  deriving DecidableEq, Repr, Inhabited

namespace Snapshot

def isEmpty (s : Snapshot) : Bool := s.equations.isEmpty && s.rules.isEmpty

/-- Both lists under their headings, one indented entry a line. -/
def text (s : Snapshot) : String :=
  let entries (lines : List String) : String := String.join (lines.map fun l => "  " ++ l ++ "\n")
  "equations:\n" ++ entries s.equations ++ "rules:\n" ++ entries s.rules

end Snapshot

/-- What stopped a call. -/
inductive Failure where
  /-- The order gives an equation no direction, and equations without direction are not kept. -/
  | unorientable (equation : String)
  | reductionDivergence (start last : String)
  /-- A normal form was asked of a system that is not complete enough for the term. -/
  | incompleteSystem (reason : String)
  | budgetExceeded (steps : Nat) (reason : String)
  | internal (message : String)
  deriving DecidableEq, Repr

def Failure.message : Failure → String
  | .unorientable equation => "cannot orient " ++ equation
  | .reductionDivergence start last => "reduction taking too long: " ++ start ++ " reached " ++ last
  | .incompleteSystem reason => reason
  | .budgetExceeded steps reason =>
    "completion stopped after " ++ steps.repr ++ " steps: " ++ reason
  | .internal message => "internal error: " ++ message

/-- May the call be tried again? -/
def Failure.isRetryable : Failure → Bool
  | .budgetExceeded _ _ => true
  | .incompleteSystem _ => true
  | _ => false

structure EngineError where
  failure : Failure
  snapshot : Snapshot
  deriving DecidableEq, Repr

namespace EngineError

def message (e : EngineError) : String := e.failure.message ++ "\n" ++ e.snapshot.text

def isRetryable (e : EngineError) : Bool := e.failure.isRetryable

end EngineError

/-- Why a call gave no answer. -/
inductive Halt where
  | error (e : EngineError)
  /-- A loop without a bound of its own used up the fuel it was given. -/
  | outOfFuel
  deriving DecidableEq, Repr

end OrderedCompletion
