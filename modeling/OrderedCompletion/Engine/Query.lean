import OrderedCompletion.Engine.Step

/-! The calls of a completion run: steps, completion, equality and normal forms. -/

namespace OrderedCompletion.Engine

/-- Has no equation a direction? -/
def allUnorientable (ctx : Context) : List Equation → EngineM Bool
  | [] => return true
  | eq :: eqs => do
    if ← orientable ctx eq then return false
    allUnorientable ctx eqs

/-- The normal forms of pairs, without trivial and repeated ones. -/
def normalizePairs (ctx : Context) (found : List Equation) :
    List Equation → EngineM (List Equation)
  | [] => return found
  | pair :: rest => do
    let eq ← normalizeSides ctx pair
    normalizePairs ctx (if eq.isTrivial then found else addNew found eq) rest

/-- Have the sides of every pair the same normal form? -/
def pairsMeet (ctx : Context) : List Equation → EngineM Bool
  | [] => return true
  | pair :: rest => do
    if (← normalizeSides ctx pair).isTrivial then pairsMeet ctx rest else return false

/-- Do the critical pairs of all sources join? A pair counts as joined also if an equation subsumes its
normal form. -/
def sourcesJoin (ctx : Context) : List (Equation × Bool) → EngineM Bool
  | [] => return true
  | (eq, withEquations) :: rest => do
    let pairs ← superposeAfresh ctx eq withEquations
    let reduced ← normalizePairs ctx [] pairs
    let left ← filterSubsumed (← get).equations reduced
    if ← pairsMeet ctx left then sourcesJoin ctx rest
    else return false

/-- Do all critical pairs of equations and rules join? -/
def allPairsJoin (ctx : Context) : EngineM Bool := do
  let e ← get
  sourcesJoin ctx (e.equations.map (·, true) ++ e.rules.map (·, false))

/-- Is the run at its end? A run whose worklist is empty, or has only equations without direction whose
critical pairs join, ends here. -/
def checkTerminal (ctx : Context) : EngineM Bool := do
  match (← get).status with
  | .complete => return true
  | .groundComplete => return true
  | .failed => failedEarlier ctx
  | .running =>
    let equations := (← get).equations
    if equations.isEmpty then
      modify fun e => { e with status := .complete }
      return true
    if !(← allUnorientable ctx equations) then return false
    if !(← poisonOnError (allPairsJoin ctx)) then return false
    modify fun e => { e with status := .groundComplete }
    return true

/-- Takes one step, unless the run is at its end, which is the answer. -/
def step (ctx : Context) : EngineM Bool := do
  if ← checkTerminal ctx then return true
  advance ctx
  return false

/-- Why a call that took some steps may not take another one. -/
def budgetSpent (ctx : Context) (e : Engine) (taken : Nat) : Option String :=
  if e.workspace.stop then some "cancelled"
  else match e.config.maxSteps with
    | some n => if n ≤ taken then some ("step budget of " ++ n.repr ++ " exhausted") else timeSpent
    | none => timeSpent
where
  timeSpent : Option String :=
    match e.config.timeLimit with
    | some limit => if limit ≤ ctx.elapsed taken then some "time limit reached" else none
    | none => none

/-- Fails if the budget of the call is spent. -/
def checkBudget (ctx : Context) (taken : Nat) : EngineM Unit := do
  match budgetSpent ctx (← get) taken with
  | some reason => fail ctx (.budgetExceeded taken reason)
  | none => return

def completeFrom (ctx : Context) : (fuel taken : Nat) → EngineM Unit
  | 0, _ => throw .outOfFuel
  | fuel + 1, taken => do
    if ← checkTerminal ctx then return
    checkBudget ctx taken
    advance ctx
    completeFrom ctx fuel (taken + 1)

/-- Takes steps until the run is at its end. -/
def complete (ctx : Context) : EngineM Unit := do
  modify (·.setStop false)
  completeFrom ctx ctx.fuel 0

def ensureUsable (ctx : Context) : EngineM Unit := do
  if (← get).status = .failed then failedEarlier ctx

def equalFrom (ctx : Context) (eq : Equation) : (fuel taken : Nat) → EngineM Bool
  | 0, _ => throw .outOfFuel
  | fuel + 1, taken => do
    if (← normalizeSides ctx eq).isTrivial then return true
    if ← checkTerminal ctx then return false
    checkBudget ctx taken
    advance ctx
    equalFrom ctx eq fuel (taken + 1)

/-- Are both sides equal? Takes steps until their normal forms meet or the run is at its end. -/
def equal (ctx : Context) (eq : Equation) : EngineM Bool := do
  ensureUsable ctx
  reserve eq.lhs
  reserve eq.rhs
  modify (·.setStop false)
  equalFrom ctx eq ctx.fuel 0

/-- Normalizes with what there is. -/
def reduce (ctx : Context) (r : Ref) : EngineM Ref := do
  ensureUsable ctx
  reserve r
  let e ← get
  normalizeOne ctx e.rules e.activeEquations r

/-- The canonical form of a term, of which there is only one if the run is at its end. A term with
variables needs a complete run. -/
def normalForm (ctx : Context) (r : Ref) : EngineM Ref := do
  ensureUsable ctx
  let e ← get
  if ← Store.isGround r then
    if !e.isGroundComplete then
      fail ctx (.incompleteSystem "cannot find ground normal form for ground incomplete system")
  else if !e.isComplete then
    fail ctx (.incompleteSystem "cannot find normal form for incomplete system")
  reduce ctx r

end OrderedCompletion.Engine
