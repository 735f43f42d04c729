import OrderedCompletion.Subst

/-! Unification. The bindings form chains, which are followed and in the end resolved. -/

namespace OrderedCompletion.Store

/-- Goes from a bound variable to what it is bound to, `n` times at most. -/
def followUpTo (s : Store) (σ : Subst) : Nat → Ref → Ref
  | 0, r => r
  | n + 1, r =>
    match s.node? r with
    | some (.var v) =>
      match σ.find? v with
      | some q => s.followUpTo σ n q
      | none => r
    | some (.app _ _) => r
    | none => r

/-- The variable without a binding, or the application, that a reference stands for. -/
def follow (s : Store) (σ : Subst) (r : Ref) : Ref := s.followUpTo σ σ.bindings.length r

/-- Does a variable occur down to some depth when bindings are followed? -/
def reachesWithin (σ : Subst) (v : Var) : Nat → Ref → StoreM Bool
  | 0, _ => return false
  | n + 1, r => do
    if ← isGround r then return false
    let s ← get
    match s.node? (s.follow σ r) with
    | some (.var w) => return w = v
    | some (.app _ args) => args.reverse.anyM (reachesWithin σ v n)
    | none => return false

/-- Extends a substitution so that the terms of a pair become equal, down to some depth. Of two variables
the greater one is bound; a variable is bound to no term that contains it. The last argument of an
application comes first. -/
def unifyWithin : Nat → Subst → Ref × Ref → OptionT StoreM Subst
  | 0, _, _ => failure
  | n + 1, σ, (a, b) => do
    let s ← getThe Store
    let a := s.follow σ a
    let b := s.follow σ b
    if a = b then return σ
    match s.node? a, s.node? b with
    | some (.var v), some (.var w) => return if v < w then σ.bind w a else σ.bind v b
    | some (.var v), some (.app _ _) =>
      if ← reachesWithin σ v (n + 1) b then failure
      return σ.bind v b
    | some (.app _ _), some (.var w) =>
      if ← reachesWithin σ w (n + 1) a then failure
      return σ.bind w a
    | some (.app f ss), some (.app g ts) =>
      guard (f = g ∧ ss.length = ts.length)
      (ss.zip ts).reverse.foldlM (unifyWithin n) σ
    | none, _ => failure
    | _, none => failure

/-- A most general substitution that makes the sides of every pair equal, if one exists. No bound
variable occurs in a bound term. A path down a term passes each binding at most once and so is no longer
than the square of the bound. -/
def unifyPairs? (pairs : List (Ref × Ref)) : OptionT StoreM Subst := do
  let s ← getThe Store
  let σ ← pairs.reverse.foldlM (unifyWithin (s.bound * s.bound)) .empty
  resolve σ

def unify? (r q : Ref) : OptionT StoreM Subst := unifyPairs? [(r, q)]

end OrderedCompletion.Store
