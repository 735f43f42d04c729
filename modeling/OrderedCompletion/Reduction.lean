import OrderedCompletion.Workspace

/-! Normalization by rules and by equations that decrease. A pass reduces the arguments of a term and
then its top; passes are repeated until one changes nothing. -/

namespace OrderedCompletion

inductive ReduceError where
  /-- No pass left, or too large a term: where the run began, what it reached, and its passes. -/
  | diverged (start last : Ref) (passes : Nat)
  | exhausted
  | term (e : TermError)
  deriving DecidableEq, Repr

/-- The nodes that a term may gain by default. -/
def defaultGrowth : Nat := 1000

/-- What terms are normalized with. -/
structure Reducer where
  order : Order
  /-- Used from left to right, in this order. -/
  rules : List Equation := []
  /-- Used in both directions, where the instance decreases. -/
  equations : List Equation := []
  maxPasses : Nat := 10000
  /-- Nodes that a term may gain over its first size. -/
  maxGrowth : Nat := defaultGrowth

/-- What normalization leaves behind for later terms. -/
structure ReduceState where
  workspace : Workspace := {}
  /-- The outcomes of single passes. -/
  memo : Std.TreeMap Ref Ref := {}
  /-- Passes over all terms so far. -/
  passes : Nat := 0
  deriving Inhabited

/-- The normalization that a pass belongs to. -/
structure ReduceCall where
  start : Ref
  /-- The greatest size allowed. -/
  ceiling : Nat
  passes : Nat

/-- Actions of a normalization. -/
abbrev ReduceM := TermM ReduceState ReduceError

namespace Reducer

variable {α : Type}

/-- Runs an action on the workspace of a normalization. -/
def onWorkspace (x : TermM Workspace Exhausted α) : ReduceM α :=
  x.within ReduceState.workspace (fun workspace s => { s with workspace }) fun _ => .exhausted

/-- Gives a fresh name to each of the variables that is unbound and clashes with one of the target. -/
def bindClashes (targetVars : List Var) (σ : Subst) : List Var → ReduceM Subst
  | [] => return σ
  | v :: vs => do
    if !σ.isBound v && targetVars.contains v then
      let fresh ← onWorkspace Workspace.drawVar
      bindClashes targetVars (σ.bind v fresh) vs
    else bindClashes targetVars σ vs

/-- The right side of a rule under the match of its left side with the target. -/
def instantiate (rule : Equation) (σ : Subst) (target : Ref) : ReduceM Ref := do
  let targetVars ← Store.vars target
  let σ ← bindClashes targetVars σ (← Store.vars rule.rhs)
  Store.apply σ rule.rhs

/-- Uses a rule at the top of a term if it matches. -/
def useRule (t : Ref) (rule : Equation) : ReduceM Ref := do
  match ← (Store.match? rule.lhs t).run with
  | some σ => instantiate rule σ t
  | none => return t

/-- Uses a directed equation at the top of a term if it matches and the term decreases. -/
def useEquation (o : Order) (t : Ref) (e : Equation) : ReduceM Ref := do
  match ← (Store.match? e.lhs t).run with
  | some σ =>
    let u ← instantiate e σ t
    if ← onWorkspace (Workspace.ask o t u) then return u else return t
  | none => return t

/-- Uses every rule once at the top, each on what the one before it left, and then every equation in
both directions. -/
def reduceTop (r : Reducer) (t : Ref) : ReduceM Ref := do
  let t ← r.rules.foldlM useRule t
  (r.equations.flatMap fun e => [e, e.reversed]).foldlM (useEquation r.order) t

/-- Reduces the top of `inner` and notes it as the outcome for `t`. -/
def settle (r : Reducer) (call : ReduceCall) (t inner : Ref) : ReduceM Ref := do
  let out ← r.reduceTop inner
  if call.ceiling < ((← getThe Store).sizeOf out).toNat then
    throw (.diverged call.start out call.passes)
  modify fun s => { s with memo := s.memo.insert t out }
  return out

/-- One pass down to some depth: the arguments from left to right, and then the top. A term that was
treated before keeps its outcome. -/
def passWithin (r : Reducer) (call : ReduceCall) : Nat → Ref → ReduceM Ref
  | 0, t => throw (.term (.unknownTerm t))
  | n + 1, t => do
    match (← get).memo[t]? with
    | some out => return out
    | none =>
      match (← getThe Store).node? t with
      | some (.var _) => r.settle call t t
      | some (.app f args) =>
        let inner ← args.mapM (r.passWithin call n)
        r.settle call t (← Store.app f inner)
      | none => throw (.term (.unknownTerm t))

def pass (r : Reducer) (call : ReduceCall) (t : Ref) : ReduceM Ref := do
  r.passWithin call (← getThe Store).growingBound t

/-- Repeats passes until one changes nothing; `left` of them are still allowed. -/
def passUntilFixed (r : Reducer) (start : Ref) (ceiling : Nat) :
    (left done : Nat) → Ref → ReduceM Ref
  | 0, done, t => throw (.diverged start t done)
  | left + 1, done, t => do
    let u ← r.pass ⟨start, ceiling, done⟩ t
    modify fun s => { s with passes := s.passes + 1 }
    if u = t then return t else r.passUntilFixed start ceiling left (done + 1) u

def normalize (r : Reducer) (t : Ref) : ReduceM Ref := do
  let size := ((← getThe Store).sizeOf t).toNat
  r.passUntilFixed t (size + r.maxGrowth) r.maxPasses 0 t

/-- Normalizes terms in turn, up to the first failure. -/
def normalizeAll (r : Reducer) : List Ref → ReduceM (List Ref)
  | [] => return []
  | t :: ts => do
    let u ← r.normalize t
    let us ← r.normalizeAll ts
    return u :: us

end Reducer
end OrderedCompletion
