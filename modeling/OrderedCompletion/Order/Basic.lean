import OrderedCompletion.Order.Kbo
import OrderedCompletion.Order.Lpo

/-! Strict orders on stored terms. -/

namespace OrderedCompletion

/-- A test whether one term is greater than another. No law is asked of it here. -/
structure Order where
  greater : Ref → Ref → StoreM Bool
  /-- The questions that also request a stop of the run that asks them. -/
  alarm : Store → Ref → Ref → Bool := fun _ _ _ => false

/-- The orders that come with the library. -/
inductive OrderKind where
  | kbo
  | lpo
  deriving DecidableEq, Repr, Inhabited

namespace Order

def ofKind (cmp : HeadComparison) : OrderKind → Order
  | .kbo => { greater := Kbo.greater cmp }
  | .lpo => { greater := Lpo.greater cmp }

/-- Asks for one direction, and for the other one only if needed. -/
def orientable (o : Order) (r q : Ref) : StoreM Bool := do
  if ← o.greater r q then return true
  o.greater q r

end Order
end OrderedCompletion
