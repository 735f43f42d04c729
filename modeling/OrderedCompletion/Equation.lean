import OrderedCompletion.Matching
import OrderedCompletion.Term.Printer

/-! Directed pairs of stored terms: equations, rules and subsumption between them. -/

namespace OrderedCompletion

/-- A pair of terms. In a worklist it states an equality, in a rule set it leads from left to right. -/
structure Equation where
  lhs : Ref
  rhs : Ref
  deriving DecidableEq, Repr, Inhabited

instance : Digest Equation where
  digest e := 1000003 * UInt64.ofNat e.lhs + UInt64.ofNat e.rhs

namespace Equation

def reversed (e : Equation) : Equation := ⟨e.rhs, e.lhs⟩

/-- Both sides are the same term. -/
def isTrivial (e : Equation) : Bool := e.lhs = e.rhs

/-- Puts both sides into the store, the left one first. -/
def ofTerms (lhs rhs : Term) : StoreM Equation := do
  let l ← Store.ofTerm lhs
  let r ← Store.ofTerm rhs
  return ⟨l, r⟩

/-- Puts equations into the store in turn. -/
def listOfTerms (pairs : List (Term × Term)) : StoreM (List Equation) :=
  pairs.mapM fun (lhs, rhs) => ofTerms lhs rhs

/-- The text of both sides with a separator between them. -/
def print (symbols : SymbolTable) (s : Store) (sep : String) (e : Equation) :
    Except PrintError String :=
  (s.term e.lhs).printPair symbols sep (s.term e.rhs)

def apply (σ : Subst) (e : Equation) : StoreM Equation := do
  let lhs ← Store.apply σ e.lhs
  let rhs ← Store.apply σ e.rhs
  return ⟨lhs, rhs⟩

/-- The variables of both sides in increasing order, each of them once. -/
def vars (e : Equation) : StoreM (List Var) := do
  let vs ← Store.vars e.lhs
  let ws ← Store.vars e.rhs
  return sortVars (vs ++ ws)

/-- Does a variable occur in both equations? -/
def sharesVars (e d : Equation) : StoreM Bool := do
  let vs ← e.vars
  let ws ← d.vars
  return ws.any vs.contains

/-- Is `d` an instance of `e`, side for side? -/
def subsumes (e d : Equation) : StoreM Bool := do
  return (← (Store.matchPairs? [(e.lhs, d.lhs), (e.rhs, d.rhs)]).run).isSome

/-- Is `d` or its reverse an instance of `e`? -/
def subsumesEither (e d : Equation) : StoreM Bool := do
  if ← e.subsumes d then return true
  e.subsumes d.reversed

end Equation
end OrderedCompletion
