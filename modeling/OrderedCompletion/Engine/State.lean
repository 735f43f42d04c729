import OrderedCompletion.Engine.Config
import OrderedCompletion.Engine.Error
import OrderedCompletion.Metrics
import OrderedCompletion.Superposition
import OrderedCompletion.Term.Printer
import OrderedCompletion.Text.Sort

/-! The state of a completion run, its text, and the actions on it. -/

namespace OrderedCompletion

inductive Status where
  /-- More steps are needed. -/
  | running
  /-- The worklist is empty: the rules decide the equality of all terms. -/
  | complete
  /-- Only equations without direction are left and their critical pairs join: equality of ground terms
  is decided. -/
  | groundComplete
  /-- A step failed. -/
  | failed
  deriving DecidableEq, Repr, Inhabited

/-- A completion run: equations that are still to be treated, and rules. -/
structure Engine where
  config : Config := {}
  /-- The worklist. -/
  equations : List Equation := []
  /-- In the order in which they are used. -/
  rules : List Equation := []
  workspace : Workspace := {}
  /-- The pairs of donors that were superposed. -/
  seen : Index (Equation × Equation) Unit := .empty
  status : Status := .running
  metrics : Metrics := {}
  /-- Steps over the whole life of the run. -/
  steps : Nat := 0
  deriving Inhabited

/-- More than any run can use up. -/
def ampleFuel : Nat := 0x10000000000000000

/-- What the calls of a run depend on besides its state. -/
structure Context where
  symbols : SymbolTable
  order : Order
  /-- Bounds the loops that have no bound of their own. -/
  fuel : Nat := ampleFuel
  /-- What the clock says when a call looks at it before it takes another step: the milliseconds since the call began,
  by the number of steps that it has taken. -/
  elapsed : Nat → Nat := fun _ => 0

/-- A call: it may fail, and leaves a state and a store behind in any case. -/
abbrev EngineM := TermM Engine Halt

/-- The variables of terms that a supply made up, in the order of their first occurrence. -/
def Supply.madeUpVars (supply : Supply) (s : Store) (roots : List Ref) : List Var :=
  ((roots.flatMap s.occurrences).filter fun v => !supply.isReserved v).eraseDups

/-- Made-up variables are written `v0`, `v1`, ... in the order of the list; the others keep their
numbers. -/
def spellMadeUp (madeUp : List Var) (v : Var) : String :=
  match madeUp.idxOf? v with
  | some i => "v" ++ i.repr
  | none => numberedVar v

/-- The text of a term, or the reason why it has none in angle brackets. -/
def Term.printOr (symbols : SymbolTable) (spell : Var → String) (t : Term) : String :=
  match t.printWith symbols spell with
  | .ok text => text
  | .error e => "<" ++ e.message ++ ">"

namespace Engine

/-- The worklist starts as the axioms without trivial and repeated ones; their variables are never used
as fresh ones. -/
def ofAxioms (config : Config) (axioms : List Equation)
    (source : VarSource := .counting firstFresh) : StoreM Engine := do
  let equations := (axioms.filter fun e => !e.isTrivial).foldl addNew []
  let supply ← equations.foldlM (fun supply e => return supply.reserve (← e.vars)) { source }
  return { config, equations, workspace := { supply } }

def isComplete (e : Engine) : Bool := e.status = .complete

def isGroundComplete (e : Engine) : Bool := e.status = .complete || e.status = .groundComplete

/-- The equations that terms are normalized with. -/
def activeEquations (e : Engine) : List Equation := if e.config.unfailing then e.equations else []

/-- Changes the budget of later calls. -/
def setBudget (e : Engine) (maxSteps timeLimit : Option Nat) : Engine :=
  { e with config := { e.config with maxSteps, timeLimit } }

/-- Requests or withdraws a stop. -/
def setStop (e : Engine) (stop : Bool) : Engine := { e with workspace := { e.workspace with stop } }

def renderTerm (symbols : SymbolTable) (s : Store) (e : Engine) (r : Ref) : String :=
  (s.term r).printOr symbols (spellMadeUp (e.workspace.supply.madeUpVars s [r]))

def renderPair (symbols : SymbolTable) (s : Store) (e : Engine) (sep : String) (eq : Equation) :
    String :=
  let spell := spellMadeUp (e.workspace.supply.madeUpVars s [eq.lhs, eq.rhs])
  (s.term eq.lhs).printOr symbols spell ++ " " ++ sep ++ " " ++ (s.term eq.rhs).printOr symbols spell

def sortTexts (texts : List String) : List String := Text.sortBy Text.shorterFirst texts

/-- Equations and rules as text, shortest first. -/
def snapshot (symbols : SymbolTable) (s : Store) (e : Engine) : Snapshot where
  equations := sortTexts (e.equations.map (e.renderPair symbols s "="))
  rules := sortTexts (e.rules.map (e.renderPair symbols s "->"))

/-- The equations, an empty line and the rules; an empty block is left out. -/
def render (symbols : SymbolTable) (s : Store) (e : Engine) : String :=
  let shot := e.snapshot symbols s
  "\n\n".intercalate (([shot.equations, shot.rules].filter (!·.isEmpty)).map ("\n".intercalate ·))

variable {α : Type}

/-- Fails with the equations and rules of the moment. -/
def fail (ctx : Context) (failure : Failure) : EngineM α := do
  let e ← get
  throw (.error ⟨failure, e.snapshot ctx.symbols (← getThe Store)⟩)

def failedEarlier (ctx : Context) : EngineM α := fail ctx (.internal "engine failed in an earlier step")

/-- Any failure of the action leaves a failed run behind. -/
def poisonOnError (x : EngineM α) : EngineM α := do
  try x
  catch h =>
    modify fun e => { e with status := .failed }
    throw h

/-- Runs an action on the workspace of a run. -/
def onWorkspace (x : TermM Workspace Halt α) : EngineM α :=
  x.within Engine.workspace (fun workspace e => { e with workspace }) id

def ask (ctx : Context) (r q : Ref) : EngineM Bool := onWorkspace (Workspace.ask ctx.order r q)

/-- Has the equation a direction? -/
def orientable (ctx : Context) (eq : Equation) : EngineM Bool :=
  onWorkspace (Workspace.askEither ctx.order eq.lhs eq.rhs)

/-- Keeps the variables of a query from being used as fresh ones. -/
def reserve (r : Ref) : EngineM Unit := do
  let vs ← Store.vars r
  onWorkspace (modify fun w => { w with supply := w.supply.reserve vs })

/-- Runs a normalization and counts its passes, also if it fails. -/
def reduceWith (ctx : Context) (rules equations : List Equation) (action : Reducer → ReduceM α) :
    EngineM α := do
  let e ← get
  let reducer : Reducer :=
    { order := ctx.order, rules, equations, maxPasses := e.config.maxReductionPasses,
      maxGrowth := e.config.maxTermGrowth }
  let (outcome, s) ← (action reducer).run.run { workspace := e.workspace }
  let e :=
    { e with workspace := s.workspace, metrics := e.metrics.recordReductionPasses s.passes }
  set e
  match outcome with
  | .ok a => return a
  | .error (.diverged start last _) =>
    let render := e.renderTerm ctx.symbols (← getThe Store)
    fail ctx (.reductionDivergence (render start) (render last))
  | .error .exhausted => fail ctx (.internal Exhausted.exhausted.message)
  | .error (.term err) => fail ctx (.internal err.message)

def normalizeOne (ctx : Context) (rules equations : List Equation) (r : Ref) : EngineM Ref :=
  reduceWith ctx rules equations fun reducer => reducer.normalize r

def normalizeWith (ctx : Context) (rules equations : List Equation) (rs : List Ref) :
    EngineM (List Ref) :=
  reduceWith ctx rules equations fun reducer => reducer.normalizeAll rs

/-- Normalizes both sides of an equation with all rules and active equations. -/
def normalizeSides (ctx : Context) (eq : Equation) : EngineM Equation := do
  let e ← get
  reduceWith ctx e.rules e.activeEquations fun reducer => do
    let lhs ← reducer.normalize eq.lhs
    let rhs ← reducer.normalize eq.rhs
    return ⟨lhs, rhs⟩

/-- The superposition of an equation with the rules or with everything. -/
def superposition (ctx : Context) (e : Engine) (eq : Equation) (withEquations : Bool) :
    TermM Superposer OverlapError (List Equation) :=
  if withEquations then Superposer.againstAll ctx.order e.equations e.rules eq
  else Superposer.againstRules ctx.order e.rules eq

/-- The pairs of a superposition, if it had no failure. -/
def pairsOf (ctx : Context) : Except OverlapError (List Equation) → EngineM (List Equation)
  | .ok pairs => return pairs
  | .error err => fail ctx (.internal err.message)

/-- Critical pairs from donors that were not superposed before. -/
def superpose (ctx : Context) (eq : Equation) (withEquations : Bool) : EngineM (List Equation) := do
  let e ← get
  let (outcome, s) ← (superposition ctx e eq withEquations).run.run
    { workspace := e.workspace, seen := e.seen }
  set { e with workspace := s.workspace, seen := s.seen }
  pairsOf ctx outcome

/-- Critical pairs from all donors. -/
def superposeAfresh (ctx : Context) (eq : Equation) (withEquations : Bool) :
    EngineM (List Equation) := do
  let e ← get
  let (outcome, s) ← (superposition ctx e eq withEquations).run.run { workspace := e.workspace }
  set { e with workspace := s.workspace }
  pairsOf ctx outcome

end Engine
end OrderedCompletion
