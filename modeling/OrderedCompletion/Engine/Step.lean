import OrderedCompletion.Engine.State

/-! One step of completion: orient or put off an equation, add its critical pairs, and reduce the rules
and equations by each other. -/

namespace OrderedCompletion.Engine

/-- Puts an equation in front unless the list has it. -/
def addFront (es : List Equation) (e : Equation) : List Equation := if e ∈ es then es else e :: es

def remove (es : List Equation) (e : Equation) : List Equation := es.filter (· ≠ e)

/-- The first equation that has a direction. -/
def findOrientable (ctx : Context) : List Equation → EngineM (Option Equation)
  | [] => return none
  | eq :: eqs => do
    if ← orientable ctx eq then return some eq
    findOrientable ctx eqs

/-- The first equation that has a direction, or else the first one. -/
def pick (ctx : Context) : EngineM Equation := do
  let equations := (← get).equations
  match ← findOrientable ctx equations with
  | some eq => return eq
  | none =>
    match equations with
    | eq :: _ => return eq
    | [] => fail ctx (.internal "step called with an empty worklist")

/-- Drops the equations that one of the worklist subsumes. -/
def filterSubsumed (worklist candidates : List Equation) : StoreM (List Equation) :=
  candidates.filterM fun c => return !(← worklist.anyM (·.subsumes c))

/-- Takes back the rules whose left sides `ab` reduces. -/
def collapseBy (ctx : Context) (ab : Equation) : List Equation → EngineM Unit
  | [] => return
  | rule :: rest => do
    let lhs ← normalizeOne ctx [ab] [] rule.lhs
    if lhs ≠ rule.lhs then
      modify fun e => { e with
        metrics := e.metrics.recordRuleCollapsed
        equations := addFront e.equations ⟨lhs, rule.rhs⟩
        rules := remove e.rules rule }
    collapseBy ctx ab rest

/-- Looks for the first rule whose right side the other ones reduce. It is returned in its reduced form,
between the rules before and after it. -/
def findComposable (ctx : Context) (before : List Equation) :
    List Equation → EngineM (Option (List Equation × Equation × List Equation))
  | [] => return none
  | rule :: after => do
    let rhs ← normalizeOne ctx (before ++ after) [] rule.rhs
    if rhs ≠ rule.rhs then return some (before, ⟨rule.lhs, rhs⟩, after)
    findComposable ctx (before ++ [rule]) after

/-- Reduces right sides by the other rules until none changes. A rule that becomes equal to another one
is dropped. -/
def compose (ctx : Context) : Nat → EngineM Unit
  | 0 => throw .outOfFuel
  | n + 1 => do
    match ← findComposable ctx [] (← get).rules with
    | none => return
    | some (before, rule, after) =>
      let rules := if rule ∈ before ++ after then before ++ after else before ++ rule :: after
      modify fun e => { e with metrics := e.metrics.recordRuleComposed, rules }
      compose ctx n

/-- Pairs up the sides of equations; trivial and repeated equations are dropped. -/
def pairUp (found : List Equation) : List Ref → List Equation
  | lhs :: rhs :: rest => pairUp (if lhs = rhs then found else addNew found ⟨lhs, rhs⟩) rest
  | _ => found

/-- Reduces both sides of every equation by the rules. -/
def simplify (ctx : Context) : EngineM Unit := do
  let e ← get
  let sides ← normalizeWith ctx e.rules [] (e.equations.flatMap fun eq => [eq.lhs, eq.rhs])
  modify fun e => { e with equations := pairUp [] sides }

/-- Divides equations into those with and those without direction. -/
def partitionOrientable (ctx : Context) :
    List Equation → EngineM (List Equation × List Equation)
  | [] => return ([], [])
  | eq :: eqs => do
    let yes ← orientable ctx eq
    let (oriented, others) ← partitionOrientable ctx eqs
    return if yes then (eq :: oriented, others) else (oriented, eq :: others)

/-- Shortest equations first; if equations without direction are kept, those with direction precede
them. -/
def sortWorklist (ctx : Context) : EngineM Unit := do
  let e ← get
  if e.config.unfailing then
    let (oriented, others) ← partitionOrientable ctx e.equations
    let sorted := Text.sortByText (e.renderPair ctx.symbols (← getThe Store) "=")
    modify fun e => { e with equations := sorted oriented ++ sorted others }
  else
    let sorted := Text.sortByText (e.renderPair ctx.symbols (← getThe Store) "=")
    modify fun e => { e with equations := sorted e.equations }

/-- Drops equations that another one subsumes in either direction; `kept` have been looked at. -/
def removeSubsumed (kept : List Equation) : List Equation → StoreM (List Equation)
  | [] => return kept
  | eq :: rest => do
    let others := (kept ++ eq :: rest).filter (· ≠ eq)
    if ← others.anyM (·.subsumesEither eq) then removeSubsumed kept rest
    else removeSubsumed (kept ++ [eq]) rest

/-- Gives an equation its direction, greater side first. -/
def orient (ctx : Context) (eq : Equation) : EngineM (Option Equation) := do
  if ← ask ctx eq.lhs eq.rhs then return some eq
  if ← ask ctx eq.rhs eq.lhs then return some eq.reversed
  return none

/-- Makes a rule of `eq`, which has the direction `ab`. -/
def addRule (ctx : Context) (eq ab : Equation) : EngineM Unit := do
  modify fun e => { e with metrics := e.metrics.recordRuleAdded, rules := addNew e.rules ab }
  let pairs ← superpose ctx ab false
  let kept ← filterSubsumed (← get).equations pairs
  modify fun e => { e with
    metrics := e.metrics.recordCriticalPairs pairs.length kept.length
    equations := remove (kept.foldl addNew e.equations) eq }
  collapseBy ctx ab ((← get).rules.filter (· ≠ ab))

/-- The critical pairs of equations in turn, their number, and those of them that no equation of the
worklist subsumes. -/
def collectPairs (ctx : Context) :
    List (Equation × Bool) → EngineM (Nat × List Equation)
  | [] => return (0, [])
  | (eq, withEquations) :: rest => do
    let pairs ← superpose ctx eq withEquations
    let kept ← filterSubsumed (← get).equations pairs
    let (n, more) ← collectPairs ctx rest
    return (pairs.length + n, kept ++ more)

/-- Moves an equation without direction to the end and adds its critical pairs. -/
def defer (ctx : Context) (eq : Equation) : EngineM Unit := do
  modify fun e => { e with
    metrics := e.metrics.recordDeferred
    equations := remove e.equations eq ++ [eq] }
  let (n, kept) ← collectPairs ctx
    [(eq, false), (eq.reversed, false), (eq, true), (eq.reversed, true)]
  modify fun e => { e with
    metrics := e.metrics.recordCriticalPairs n kept.length
    equations := kept.foldl addNew e.equations }

/-- Reduces rules and equations by each other. -/
def interreduce (ctx : Context) : EngineM Unit := do
  compose ctx ctx.fuel
  simplify ctx
  if (← get).config.sortWorklist then sortWorklist ctx
  let equations ← removeSubsumed [] (← get).equations
  modify fun e => { e with equations }

def advanceInner (ctx : Context) : EngineM Unit := do
  modify fun e => { e with steps := e.steps + 1, metrics := e.metrics.recordStep }
  let eq ← pick ctx
  match ← orient ctx eq with
  | some ab =>
    addRule ctx eq ab
    interreduce ctx
  | none =>
    if eq.isTrivial then
      modify fun e => { e with equations := remove e.equations eq }
    else
      if !(← get).config.unfailing then
        let text := (← get).renderPair ctx.symbols (← getThe Store) "=" eq
        fail ctx (.unorientable text)
      defer ctx eq
      interreduce ctx

/-- One step. A failure leaves a failed run behind. -/
def advance (ctx : Context) : EngineM Unit := poisonOnError (advanceInner ctx)

end OrderedCompletion.Engine
