import OrderedCompletion.Subst

/-! One-sided matching: only the pattern is instantiated, so pattern and target may share variables. -/

namespace OrderedCompletion.Store

/-- Extends a substitution so that it takes a pattern to its target, down to some depth. A pattern with no
noted variables matches itself only. The last argument of an application comes first. -/
def matchWithin : Nat → Subst → Ref × Ref → OptionT StoreM Subst
  | 0, _, _ => failure
  | n + 1, σ, (p, t) => do
    if ← isGround p then
      guard (p = t)
      return σ
    let s ← getThe Store
    match s.node? p, s.node? t with
    | some (.var v), _ =>
      match σ.find? v with
      | some u =>
        guard (u = t)
        return σ
      | none => return σ.bind v t
    | some (.app f ss), some (.app g ts) =>
      guard (f = g ∧ ss.length = ts.length)
      (ss.zip ts).reverse.foldlM (matchWithin n) σ
    | some (.app _ _), _ => failure
    | none, _ => failure

/-- One substitution that takes the pattern of every pair to its target. -/
def matchPairs? (pairs : List (Ref × Ref)) : OptionT StoreM Subst := do
  let s ← getThe Store
  pairs.reverse.foldlM (matchWithin s.bound) .empty

/-- The substitution of the pattern's variables that yields the target, if there is one. -/
def match? (pattern target : Ref) : OptionT StoreM Subst := matchPairs? [(pattern, target)]

end OrderedCompletion.Store
