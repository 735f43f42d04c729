import OrderedCompletion.Store.Basic

/-! Variables of stored terms. -/

namespace OrderedCompletion.Store

/-- The variables behind a reference from left to right and down to some depth, as often as they occur,
in front of others. -/
def occurrencesOnto (s : Store) : Nat → Ref → List Var → List Var
  | 0, _, others => others
  | n + 1, r, others =>
    match s.node? r with
    | some (.var v) => v :: others
    | some (.app _ args) => args.foldr (s.occurrencesOnto n) others
    | none => others

/-- The variables of a term from left to right, as often as they occur. -/
def occurrences (s : Store) (r : Ref) : List Var := s.occurrencesOnto s.bound r []

/-- The variables behind a reference down to some depth. An answer is noted and then always given. -/
def varsWithin : Nat → Ref → StoreM (List Var)
  | 0, _ => return []
  | n + 1, r => do
    match (← get).varsOf[r]? with
    | some vs => return vs
    | none =>
      let vs ← match (← get).node? r with
        | some (.var v) => pure [v]
        | some (.app _ args) => do
          let parts ← args.mapM (varsWithin n)
          pure (sortVars parts.flatten)
        | none => pure []
      modify fun s => { s with varsOf := s.varsOf.insert r vs }
      return vs

/-- The noted variables of a term in increasing order, none if the reference led nowhere when they were
first asked for. -/
def vars (r : Ref) : StoreM (List Var) := do
  varsWithin (← get).bound r

def isGround (r : Ref) : StoreM Bool := return (← vars r).isEmpty

def occurs (v : Var) (r : Ref) : StoreM Bool := return (← vars r).contains v

end OrderedCompletion.Store
