import OrderedCompletion.Store.Basic

/-! Freezing and unfreezing of stored terms, noted by reference. -/

namespace OrderedCompletion.Store

/-- Freezes down to some depth. An outcome is noted and then always given, also that of a reference that
led nowhere. -/
def freezeWithin : Nat → Ref → StoreM Ref
  | 0, r => return r
  | n + 1, r => do
    match (← get).frozenOf[r]? with
    | some out => return out
    | none =>
      let out ← match (← get).node? r with
        | some (.var v) => rigid v
        | some (.app f args) => do
          let args ← args.mapM (freezeWithin n)
          app f args
        | none => pure r
      modify fun s => { s with frozenOf := s.frozenOf.insert r out }
      return out

/-- Turns every variable into its rigid constant. -/
def freeze (r : Ref) : StoreM Ref := do
  freezeWithin (← get).growingBound r

/-- Unfreezes down to some depth. Only successes are noted. -/
def unfreezeWithin : Nat → Ref → ExceptT TermError StoreM Ref
  | 0, r => throw (.unknownTerm r)
  | n + 1, r => do
    match (← getThe Store).thawedOf[r]? with
    | some out => return out
    | none =>
      let out ← match (← getThe Store).node? r with
        | some (.var v) => throw (.notFrozen v)
        | some (.app (.frozen v) _) => var v
        | some (.app (.symbol f) args) => do
          let args ← args.mapM (unfreezeWithin n)
          app (.symbol f) args
        | none => throw (.unknownTerm r)
      modifyThe Store fun s => { s with thawedOf := s.thawedOf.insert r out }
      return out

/-- Turns every rigid constant back into its variable. -/
def unfreeze (r : Ref) : ExceptT TermError StoreM Ref := do
  unfreezeWithin (← getThe Store).growingBound r

end OrderedCompletion.Store
