import OrderedCompletion.Equation
import OrderedCompletion.Order.Basic
import OrderedCompletion.Supply

/-! Actions on stored terms that draw fresh variables and ask an order. -/

namespace OrderedCompletion

/-- Actions on stored terms with a state of their own, which a failure leaves as it is then. -/
abbrev TermM (σ ε : Type) := ExceptT ε (StateT σ StoreM)

namespace TermM

variable {σ τ ε δ α : Type}

/-- Runs an action on a part of the state. -/
def within (part : σ → τ) (put : τ → σ → σ) (fault : ε → δ) (x : TermM τ ε α) : TermM σ δ α :=
  fun whole store =>
    match x (part whole) store with
    | ((.ok a, t), store) => ((.ok a, put t whole), store)
    | ((.error e, t), store) => ((.error (fault e), put t whole), store)

end TermM

/-- What superposition and normalization use up: fresh variables, and the chance to go on. -/
structure Workspace where
  supply : Supply := {}
  /-- A stop has been requested. -/
  stop : Bool := false
  deriving DecidableEq, Repr, Inhabited

namespace Workspace

variable {ε : Type}

/-- Draws a fresh variable and puts it into the store. -/
def drawVar : TermM Workspace Exhausted Ref := do
  let (drawn, supply) := (← get).supply.draw
  modify fun w => { w with supply }
  Store.var (← drawn)

/-- Draws a new name for every variable of the list. -/
def drawRenaming (σ : Subst) : List Var → TermM Workspace Exhausted Subst
  | [] => return σ
  | v :: vs => do
    let fresh ← drawVar
    drawRenaming (σ.bind v fresh) vs

/-- Gives every variable of an equation a fresh name, the smallest variable first. -/
def renameApart (e : Equation) : TermM Workspace Exhausted Equation := do
  let σ ← drawRenaming .empty (← e.vars)
  e.apply σ

/-- Asks the order, which may request a stop. -/
def ask (o : Order) (r q : Ref) : TermM Workspace ε Bool := do
  let store ← getThe Store
  modify fun w => { w with stop := w.stop || o.alarm store r q }
  o.greater r q

/-- Asks the order for one direction, and for the other one only if needed. -/
def askEither (o : Order) (r q : Ref) : TermM Workspace ε Bool := do
  if ← ask o r q then return true
  ask o q r

end Workspace
end OrderedCompletion
