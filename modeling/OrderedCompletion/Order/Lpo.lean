import OrderedCompletion.Order.Kbo

/-! The lexicographic path order. -/

namespace OrderedCompletion.Lpo

/-- Compares down to some depth on both sides. An application is greater than a term if an argument is at
least that term, or if it is greater than all arguments of the term and has the greater head or, with equal
heads, the greater argument where they first differ. -/
def greaterWithin (cmp : HeadComparison) : Nat → Ref → Ref → StoreM Bool
  | 0, _, _ => return false
  | n + 1, r, q => do
    if r = q then return false
    let s ← get
    match s.node? r, s.node? q with
    | some (.app f rs), some (.app g qs) =>
      if ← rs.anyM fun a => if a = q then return true else greaterWithin cmp n a q then return true
      match cmp f rs.length g qs.length with
      | some .gt => qs.allM (greaterWithin cmp n r)
      | some .eq =>
        match firstDifference rs qs with
        | some (a, b) =>
          if ← greaterWithin cmp n a b then qs.allM (greaterWithin cmp n r) else return false
        | none => return false
      | some .lt => return false
      | none => return false
    | some (.app _ _), some (.var v) => Store.occurs v r
    | some (.app _ _), none => return false
    | some (.var _), _ => return false
    | none, _ => return false

def greater (cmp : HeadComparison) (r q : Ref) : StoreM Bool := do
  let s ← get
  greaterWithin cmp (2 * s.bound) r q

end OrderedCompletion.Lpo
