import OrderedCompletion.Proofs.Lifecycle

/-! Calls that keep a record of what happens. Without the record they are the calls of a run. -/

namespace OrderedCompletion

open Engine

/-- What happens in a run. -/
inductive Event where
  | step
  /-- An equation was given a direction. The rule may have been there before. -/
  | added (repeated : Bool)
  | collapsed
  /-- A right side was reduced. That may have made the rule equal to another one. -/
  | composed (merged : Bool)
  | deferred
  /-- So many critical pairs were made, and so many of them kept. -/
  | pairs (generated kept : Nat)
  deriving DecidableEq, Repr

/-- A run with what happened in it, the latest event first. -/
structure Recorded where
  engine : Engine
  events : List Event := []

/-- A call with a record. -/
abbrev RecordM := TermM Recorded Halt

namespace RecordM

variable {α β : Type}

/-- A call in which nothing happens that is recorded. -/
def lift (x : EngineM α) : RecordM α := x.within Recorded.engine (fun engine r => { r with engine }) id

/-- Changes the run and records the change as an event. -/
def note (event : Engine → Event) (change : Engine → Engine) : RecordM Unit :=
  modify fun r => { engine := change r.engine, events := event r.engine :: r.events }

/-- Any failure leaves a failed run behind. -/
def poisonOnError (x : RecordM α) : RecordM α := do
  try x
  catch h =>
    lift (modify fun e => { e with status := .failed })
    throw h

/-- The call does what a call of the run does, and keeps a record. -/
def Records (x : RecordM α) (y : EngineM α) : Prop :=
  ∀ r s, (x r s).1.1 = (y r.engine s).1.1 ∧ (x r s).1.2.engine = (y r.engine s).1.2 ∧ (x r s).2 = (y r.engine s).2

variable {x x' : RecordM α} {y y' : EngineM α} {f : α → RecordM β} {g : α → EngineM β}

theorem Records.pure (a : α) : Records (Pure.pure a) (Pure.pure a) := fun _ _ => ⟨rfl, rfl, rfl⟩

theorem Records.throw (h : Halt) : Records (throwThe Halt h : RecordM α) (throwThe Halt h) :=
  fun _ _ => ⟨rfl, rfl, rfl⟩

theorem Records.lift (y : EngineM α) : Records (RecordM.lift y) y := by
  intro r s
  rw [RecordM.lift, TermM.within]
  rcases y r.engine s with ⟨⟨_ | _, _⟩, _⟩
  · exact ⟨rfl, rfl, rfl⟩
  · exact ⟨rfl, rfl, rfl⟩

theorem Records.liftM (y : StoreM α) : Records (liftM y) (liftM y) := fun _ _ => ⟨rfl, rfl, rfl⟩

theorem Records.note (event : Engine → Event) (change : Engine → Engine) :
    Records (RecordM.note event change) (modify change) := fun _ _ => ⟨rfl, rfl, rfl⟩

theorem Records.bind (hx : Records x y) (hf : ∀ a, Records (f a) (g a)) : Records (x >>= f) (y >>= g) := by
  intro r s
  obtain ⟨same, engine, store⟩ := hx r s
  rw [TermM.bind_apply, TermM.bind_apply, ← same, ← engine, ← store]
  cases (x r s).1.1 with
  | ok a => exact hf a _ _
  | error h => exact ⟨rfl, rfl, rfl⟩

theorem Records.ite {p : Prop} [Decidable p] (yes : Records x y) (no : Records x' y') :
    Records (if p then x else x') (if p then y else y') := by
  split
  · exact yes
  · exact no

theorem poisonOnError_apply (x : RecordM α) (r : Recorded) (s : Store) : poisonOnError x r s =
    match (x r s).1.1 with
    | .ok a => ((.ok a, (x r s).1.2), (x r s).2)
    | .error h =>
      ((.error h, { (x r s).1.2 with engine := { (x r s).1.2.engine with status := .failed } }), (x r s).2) := by
  unfold poisonOnError
  simp only [tryCatch, tryCatchThe, MonadExceptOf.tryCatch, ExceptT.tryCatch, ExceptT.mk, bind, StateT.bind]
  rcases x r s with ⟨⟨_ | _, _⟩, _⟩
  · rfl
  · rfl

theorem Records.poisonOnError (hx : Records x y) : Records (RecordM.poisonOnError x) (Engine.poisonOnError y) := by
  intro r s
  obtain ⟨same, engine, store⟩ := hx r s
  rw [RecordM.poisonOnError_apply, Engine.poisonOnError_apply, ← same, ← engine, ← store]
  cases (x r s).1.1 with
  | ok a => exact ⟨rfl, rfl, rfl⟩
  | error h => exact ⟨rfl, rfl, rfl⟩

/-! ### The calls -/

def collapseBy (ctx : Context) (ab : Equation) : List Equation → RecordM Unit
  | [] => return
  | rule :: rest => do
    let lhs ← lift (normalizeOne ctx [ab] [] rule.lhs)
    if lhs ≠ rule.lhs then
      note (fun _ => .collapsed) fun e => { e with
        metrics := e.metrics.recordRuleCollapsed
        equations := addFront e.equations ⟨lhs, rule.rhs⟩
        rules := remove e.rules rule }
    collapseBy ctx ab rest

def compose (ctx : Context) : Nat → RecordM Unit
  | 0 => throw .outOfFuel
  | n + 1 => do
    let e ← lift get
    match ← lift (findComposable ctx [] e.rules) with
    | none => return
    | some (before, rule, after) =>
      let rules := if rule ∈ before ++ after then before ++ after else before ++ rule :: after
      note (fun _ => .composed (rule ∈ before ++ after)) fun e =>
        { e with metrics := e.metrics.recordRuleComposed, rules }
      compose ctx n

def addRule (ctx : Context) (eq ab : Equation) : RecordM Unit := do
  note (fun e => .added (ab ∈ e.rules)) fun e =>
    { e with metrics := e.metrics.recordRuleAdded, rules := addNew e.rules ab }
  let pairs ← lift (superpose ctx ab false)
  let e ← lift get
  let kept ← filterSubsumed e.equations pairs
  note (fun _ => .pairs pairs.length kept.length) fun e => { e with
    metrics := e.metrics.recordCriticalPairs pairs.length kept.length
    equations := remove (kept.foldl addNew e.equations) eq }
  let e ← lift get
  collapseBy ctx ab (e.rules.filter (· ≠ ab))

def defer (ctx : Context) (eq : Equation) : RecordM Unit := do
  note (fun _ => .deferred) fun e => { e with
    metrics := e.metrics.recordDeferred
    equations := remove e.equations eq ++ [eq] }
  let (n, kept) ← lift (collectPairs ctx
    [(eq, false), (eq.reversed, false), (eq, true), (eq.reversed, true)])
  note (fun _ => .pairs n kept.length) fun e => { e with
    metrics := e.metrics.recordCriticalPairs n kept.length
    equations := kept.foldl addNew e.equations }

end RecordM

namespace Engine

/-- What follows in a step once right sides are reduced: equations are reduced, sorted and thinned out. -/
def tidyEquations (ctx : Context) : EngineM Unit := do
  simplify ctx
  if (← get).config.sortWorklist then sortWorklist ctx
  let equations ← removeSubsumed [] (← get).equations
  modify fun e => { e with equations }

theorem interreduce_eq (ctx : Context) :
    interreduce ctx = compose ctx ctx.fuel >>= fun _ => tidyEquations ctx := rfl

end Engine

namespace RecordM

def interreduce (ctx : Context) : RecordM Unit := do
  compose ctx ctx.fuel
  lift (tidyEquations ctx)

def advanceInner (ctx : Context) : RecordM Unit := do
  note (fun _ => .step) fun e => { e with steps := e.steps + 1, metrics := e.metrics.recordStep }
  let eq ← lift (pick ctx)
  match ← lift (orient ctx eq) with
  | some ab =>
    addRule ctx eq ab
    interreduce ctx
  | none =>
    if eq.isTrivial then
      lift (modify fun e => { e with equations := remove e.equations eq })
    else
      let e ← lift get
      if !e.config.unfailing then
        let e ← lift get
        let s ← lift (getThe Store)
        lift (fail ctx (.unorientable (e.renderPair ctx.symbols s "=" eq)))
      defer ctx eq
      interreduce ctx

def advance (ctx : Context) : RecordM Unit := poisonOnError (advanceInner ctx)

def step (ctx : Context) : RecordM Bool := do
  if ← lift (checkTerminal ctx) then return true
  advance ctx
  return false

def completeFrom (ctx : Context) : (fuel taken : Nat) → RecordM Unit
  | 0, _ => throw .outOfFuel
  | fuel + 1, taken => do
    if ← lift (checkTerminal ctx) then return
    lift (checkBudget ctx taken)
    advance ctx
    completeFrom ctx fuel (taken + 1)

def complete (ctx : Context) : RecordM Unit := do
  lift (modify (·.setStop false))
  completeFrom ctx ctx.fuel 0

def equalFrom (ctx : Context) (eq : Equation) : (fuel taken : Nat) → RecordM Bool
  | 0, _ => throw .outOfFuel
  | fuel + 1, taken => do
    if (← lift (normalizeSides ctx eq)).isTrivial then return true
    if ← lift (checkTerminal ctx) then return false
    lift (checkBudget ctx taken)
    advance ctx
    equalFrom ctx eq fuel (taken + 1)

def equal (ctx : Context) (eq : Equation) : RecordM Bool := do
  lift (openQuery ctx eq)
  equalFrom ctx eq ctx.fuel 0

/-! ### They are the calls of the run -/

variable {ctx : Context} {eq ab : Equation}

theorem collapseBy_records (rules : List Equation) :
    Records (collapseBy ctx ab rules) (Engine.collapseBy ctx ab rules) := by
  induction rules with
  | nil => exact .pure _
  | cons rule rules ih =>
      rw [collapseBy, Engine.collapseBy]
      exact (Records.lift _).bind fun lhs => .ite ((Records.note _ _).bind fun _ => ih) ih

theorem compose_records (n : Nat) : Records (compose ctx n) (Engine.compose ctx n) := by
  induction n with
  | zero => exact .throw _
  | succ n ih =>
      rw [compose, Engine.compose]
      refine (Records.lift _).bind fun e => (Records.lift _).bind fun found => ?_
      split
      · exact .pure _
      · exact (Records.note _ _).bind fun _ => ih

theorem addRule_records : Records (addRule ctx eq ab) (Engine.addRule ctx eq ab) :=
  (Records.note _ _).bind fun _ => (Records.lift _).bind fun _ => (Records.lift _).bind fun _ =>
    (Records.liftM _).bind fun _ => (Records.note _ _).bind fun _ => (Records.lift _).bind fun _ =>
    collapseBy_records _

theorem defer_records : Records (defer ctx eq) (Engine.defer ctx eq) :=
  (Records.note _ _).bind fun _ => (Records.lift _).bind fun _ => .note _ _

theorem interreduce_records : Records (interreduce ctx) (Engine.interreduce ctx) :=
  interreduce_eq ctx ▸ (compose_records ctx.fuel).bind fun _ => .lift _

theorem advance_records : Records (advance ctx) (Engine.advance ctx) := by
  refine .poisonOnError ?_
  refine (Records.note _ _).bind fun _ => (Records.lift _).bind fun eq => (Records.lift _).bind fun direction => ?_
  have deferred : Records (do defer ctx eq; interreduce ctx) (do Engine.defer ctx eq; Engine.interreduce ctx) :=
    defer_records.bind fun _ => interreduce_records
  split
  · exact addRule_records.bind fun _ => interreduce_records
  · refine .ite (.lift _) ((Records.lift _).bind fun e => .ite ?_ deferred)
    exact (Records.lift _).bind fun e => (Records.lift _).bind fun s => (Records.lift _).bind fun _ => deferred

theorem step_records : Records (step ctx) (Engine.step ctx) :=
  (Records.lift _).bind fun _ => .ite (.pure _) (advance_records.bind fun _ => .pure _)

theorem completeFrom_records (fuel taken : Nat) :
    Records (completeFrom ctx fuel taken) (Engine.completeFrom ctx fuel taken) := by
  induction fuel generalizing taken with
  | zero => exact .throw _
  | succ fuel ih =>
      rw [completeFrom, Engine.completeFrom]
      exact (Records.lift _).bind fun _ => .ite (.pure _) ((Records.lift _).bind fun _ =>
        advance_records.bind fun _ => ih (taken + 1))

theorem equalFrom_records (fuel taken : Nat) :
    Records (equalFrom ctx eq fuel taken) (Engine.equalFrom ctx eq fuel taken) := by
  induction fuel generalizing taken with
  | zero => exact .throw _
  | succ fuel ih =>
      rw [equalFrom, Engine.equalFrom]
      exact (Records.lift _).bind fun _ => .ite (.pure _) ((Records.lift _).bind fun _ => .ite (.pure _)
        ((Records.lift _).bind fun _ => advance_records.bind fun _ => ih (taken + 1)))

theorem complete_records : Records (complete ctx) (Engine.complete ctx) :=
  (Records.lift _).bind fun _ => completeFrom_records _ _

theorem equal_records : Records (equal ctx eq) (Engine.equal ctx eq) :=
  equal_eq ctx eq ▸ (Records.lift _).bind fun _ => equalFrom_records _ _

end RecordM

namespace Engine

open RecordM (Records)

variable {α : Type} {ctx : Context} {x : RecordM α} {y : EngineM α}

/-- What a call with a record leaves, also if it fails. -/
def leaves (x : RecordM α) (r : Recorded) (s : Store) : Recorded × Store := ((x r s).1.2, (x r s).2)

/-- The calls of a run with a record. -/
def Call.record (ctx : Context) : Call → Recorded → Store → Recorded × Store
  | .step => leaves (RecordM.step ctx)
  | .complete => leaves (RecordM.complete ctx)
  | .equal eq => leaves (RecordM.equal ctx eq)
  | .reduce r => leaves (RecordM.lift (Engine.reduce ctx r))
  | .normalForm r => leaves (RecordM.lift (Engine.normalForm ctx r))
  | .setBudget maxSteps timeLimit => fun r s => ({ r with engine := r.engine.setBudget maxSteps timeLimit }, s)
  | .cancel => fun r s => ({ r with engine := r.engine.setStop true }, s)

theorem leaves_records (h : Records x y) (r : Recorded) (s : Store) :
    ((leaves x r s).1.engine, (leaves x r s).2) = after y r.engine s :=
  Prod.ext (h r s).2.1 (h r s).2.2

theorem Call.record_run (c : Call) (r : Recorded) (s : Store) :
    ((c.record ctx r s).1.engine, (c.record ctx r s).2) = c.run ctx r.engine s := by
  cases c with
  | step => exact leaves_records RecordM.step_records r s
  | complete => exact leaves_records RecordM.complete_records r s
  | equal eq => exact leaves_records RecordM.equal_records r s
  | reduce q => exact leaves_records (.lift _) r s
  | normalForm q => exact leaves_records (.lift _) r s
  | setBudget maxSteps timeLimit => rfl
  | cancel => rfl

/-- A call with the context and the store that it is made with. -/
structure Visit where
  call : Call
  ctx : Context
  store : Store

/-- What calls make of a run, in turn. -/
def runAll (visits : List Visit) (e : Engine) : Engine := visits.foldl (fun e v => (v.call.run v.ctx e v.store).1) e

/-- The same with a record. -/
def recordAll (visits : List Visit) (r : Recorded) : Recorded :=
  visits.foldl (fun r v => (v.call.record v.ctx r v.store).1) r

theorem recordAll_engine (visits : List Visit) (r : Recorded) :
    (recordAll visits r).engine = runAll visits r.engine := by
  induction visits generalizing r with
  | nil => rfl
  | cons v visits ih =>
      rw [recordAll, List.foldl_cons, ← recordAll, ih, runAll, runAll, List.foldl_cons,
        ← v.call.record_run r v.store]

end Engine
end OrderedCompletion
