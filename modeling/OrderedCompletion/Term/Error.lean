import OrderedCompletion.Term.Basic

/-! What can go wrong when a term is taken apart. -/

namespace OrderedCompletion

/-- The child indices from the root of a term down to one of its subterms. -/
abbrev Position := List Nat

inductive TermError where
  /-- The reference leads to no term. -/
  | unknownTerm (ref : Nat)
  | invalidPosition (p : Position)
  /-- A free variable stands where only rigid ones may. -/
  | notFrozen (v : Var)
  deriving DecidableEq, Repr

/-- How messages spell a reference. -/
def spellRef (ref : Nat) : String := "TermId(" ++ ref.repr ++ ")"

/-- How messages spell a position. -/
def spellPosition (p : Position) : String := "[" ++ ", ".intercalate (p.map Nat.repr) ++ "]"

def TermError.message : TermError → String
  | .unknownTerm ref => "unknown term id " ++ spellRef ref
  | .invalidPosition p => "position " ++ spellPosition p ++ " does not address a subterm"
  | .notFrozen v => "variable $" ++ v.repr ++ " was never frozen"

end OrderedCompletion
