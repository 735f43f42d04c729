import OrderedCompletion.Symbol

/-! First-order terms: variables, applications and references to no term. -/

namespace OrderedCompletion

/-- Variables are numbered. -/
abbrev Var := Nat

/-- What stands at the head of an application. -/
inductive Head where
  | symbol (f : Symbol)
  /-- A variable made rigid: it behaves like a constant of its own. -/
  | frozen (v : Var)
  deriving DecidableEq, Repr

/-- A constant is an application without arguments. -/
inductive Term where
  | var (v : Var)
  | app (f : Head) (args : List Term)
  /-- A reference behind which no term stands. -/
  | missing (ref : Nat)
  deriving Repr

namespace Term

instance : Inhabited Term := ⟨.var 0⟩

/-- Induction that hands the hypothesis to every argument. -/
@[elab_as_elim]
theorem induct {motive : Term → Prop} (var : ∀ v, motive (.var v))
    (app : ∀ f args, (∀ a ∈ args, motive a) → motive (.app f args))
    (missing : ∀ ref, motive (.missing ref)) : ∀ t, motive t
  | .var v => var v
  | .app f args => app f args fun a _ => induct var app missing a
  | .missing ref => missing ref

mutual
/-- Equality of terms is decided node by node. -/
def decEq : (s t : Term) → Decidable (s = t)
  | .var v, .var w =>
    if h : v = w then .isTrue (by rw [h]) else .isFalse (by simp [h])
  | .app f ss, .app g ts =>
    if h : f = g then
      match decEqList ss ts with
      | .isTrue hs => .isTrue (by rw [h, hs])
      | .isFalse hs => .isFalse (by simp [hs])
    else .isFalse (by simp [h])
  | .missing r, .missing q =>
    if h : r = q then .isTrue (by rw [h]) else .isFalse (by simp [h])
  | .var _, .app _ _ => .isFalse (by simp)
  | .var _, .missing _ => .isFalse (by simp)
  | .app _ _, .var _ => .isFalse (by simp)
  | .app _ _, .missing _ => .isFalse (by simp)
  | .missing _, .var _ => .isFalse (by simp)
  | .missing _, .app _ _ => .isFalse (by simp)

def decEqList : (ss ts : List Term) → Decidable (ss = ts)
  | [], [] => .isTrue rfl
  | [], _ :: _ => .isFalse (by simp)
  | _ :: _, [] => .isFalse (by simp)
  | s :: ss, t :: ts =>
    match decEq s t with
    | .isTrue h =>
      match decEqList ss ts with
      | .isTrue hs => .isTrue (by rw [h, hs])
      | .isFalse hs => .isFalse (by simp [hs])
    | .isFalse h => .isFalse (by simp [h])
end

instance : DecidableEq Term := decEq

end Term

/-- Puts a variable at its place in an increasing list, unless it is there. -/
def insertVar (v : Var) : List Var → List Var
  | [] => [v]
  | w :: ws => if v < w then v :: w :: ws else if v = w then w :: ws else w :: insertVar v ws

/-- The variables of a list in increasing order, each of them once. -/
def sortVars (vs : List Var) : List Var := vs.foldr insertVar []

end OrderedCompletion
