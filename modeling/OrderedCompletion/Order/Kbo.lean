import OrderedCompletion.Order.Precedence
import OrderedCompletion.Store.Vars

/-! The Knuth-Bendix order in which every node weighs one. -/

namespace OrderedCompletion

/-- The first two arguments that differ. -/
def firstDifference (rs qs : List Ref) : Option (Ref × Ref) := (rs.zip qs).find? fun (r, q) => r ≠ q

namespace Kbo

/-- Every variable is in the first list at least as often as in the second. -/
def covers (vs ws : List Var) : Bool := (sortVars ws).all fun w => ws.count w ≤ vs.count w

/-- Compares down to some depth. The larger term is greater; of two equally large ones the one with the
greater head, and with equal heads the one with the greater argument where they first differ. -/
def greaterWithin (cmp : HeadComparison) : Nat → Ref → Ref → StoreM Bool
  | 0, _, _ => return false
  | n + 1, r, q => do
    if r = q then return false
    let s ← get
    match s.node? r, s.node? q with
    | some (.app f rs), some (.app g qs) =>
      match Ord.compare (s.sizeOf r) (s.sizeOf q) with
      | .gt => return true
      | .lt => return false
      | .eq =>
        match cmp f rs.length g qs.length with
        | some .gt => return true
        | some .eq =>
          match firstDifference rs qs with
          | some (a, b) => greaterWithin cmp n a b
          | none => return false
        | some .lt => return false
        | none => return false
    | some (.app _ _), some (.var v) => Store.occurs v r
    | some (.app _ _), none => return false
    | some (.var _), _ => return false
    | none, _ => return false

/-- The variable condition is asked of the two terms, and of none of their arguments. -/
def greater (cmp : HeadComparison) (r q : Ref) : StoreM Bool := do
  if r = q then return false
  let s ← get
  if covers (s.occurrences r) (s.occurrences q) then greaterWithin cmp s.bound r q
  else return false

end Kbo
end OrderedCompletion
