import OrderedCompletion.Proofs.Cutting

/-! Calls of a run whose source was cut before a variable: they go as before, or they fail where the variable
would have been drawn. -/

namespace OrderedCompletion.Engine

open Supplied
open TermM (Cuts get_bind lift_bind set_bind store_bind)

variable {v : Var} {ctx : Context} {α : Type}

/-- The run has run out of variables. -/
def Dry (halt : Halt) : Prop :=
  ∃ shot, halt = .error ⟨.internal Exhausted.exhausted.message, shot⟩

theorem fail_cuts (failure : Failure) : Cuts v Dry (fail ctx failure : EngineM α) :=
  .get (fun _ => .bind .store fun _ => .throw _) fun _ => rfl

theorem poisonOnError_cuts {x : EngineM α} (h : Cuts v Dry x) : Cuts v Dry (poisonOnError x) where
  onward := by
    intro e s
    have onward := h.onward e s
    rw [poisonOnError_apply]
    cases outcome : (x e s).1.1 with
    | ok a => exact onward
    | error halt => exact onward
  cut := by
    intro e s before
    rw [poisonOnError_apply, poisonOnError_apply]
    rcases h.cut e s before with ⟨before', same⟩ | ⟨past, ⟨halt, failed, dry⟩, none⟩
    · rw [same]
      refine .inl ?_
      cases outcome : (x e s).1.1 with
      | ok a => exact ⟨before', rfl⟩
      | error halt => exact ⟨before', rfl⟩
    · refine .inr ⟨?_, ?_⟩
      · cases outcome : (x e s).1.1 with
        | ok a => exact past
        | error halt => exact past
      · rw [failed]
        exact ⟨⟨halt, rfl, dry⟩, none⟩

theorem onWorkspace_cuts {x : TermM Workspace Halt α} (h : Cuts v Dry x) : Cuts v Dry (onWorkspace x) :=
  .within h (fun _ => rfl) (fun _ => rfl) (fun _ _ => rfl) (fun _ _ => rfl) fun _ dry => dry

theorem ask_cuts (r q : Ref) : Cuts v Dry (ask ctx r q) := onWorkspace_cuts (Workspace.ask_cuts r q)

theorem orientable_cuts (eq : Equation) : Cuts v Dry (orientable ctx eq) :=
  onWorkspace_cuts (Workspace.askEither_cuts _ _)

theorem reserve_cuts (r : Ref) : Cuts v Dry (reserve r) :=
  .bind (.lift _) fun vs => onWorkspace_cuts
    (.change (fun _ => rfl) (fun _ => rfl) fun w => (w.supply.reserve_onward vs).reserved)

/-- What a run makes of the outcome of a normalization. -/
def reduced (ctx : Context) : Except ReduceError α → EngineM α
  | .ok a => return a
  | .error (.diverged start last _) => do
    let e ← get
    let render := e.renderTerm ctx.symbols (← getThe Store)
    fail ctx (.reductionDivergence (render start) (render last))
  | .error .exhausted => fail ctx (.internal Exhausted.exhausted.message)
  | .error (.term err) => fail ctx (.internal err.message)

theorem reduced_cuts (outcome : Except ReduceError α) : Cuts v Dry (reduced ctx outcome) := by
  cases outcome with
  | ok a => exact .pure a
  | error err =>
      cases err with
      | diverged start last passes => exact .get (fun _ => .bind .store fun _ => fail_cuts _) fun _ => rfl
      | exhausted => exact fail_cuts _
      | term err => exact fail_cuts _

/-- A normalization starts on the workspace of the run, with an empty record of its own. -/
theorem reduceWith_apply {rules equations : List Equation} {action : Reducer → ReduceM α} {e : Engine}
    {s s' : Store} {outcome : Except ReduceError α} {st : ReduceState}
    (h : (action ⟨ctx.order, rules, equations, e.config.maxReductionPasses, e.config.maxTermGrowth⟩).run.run
      { workspace := e.workspace } s = ((outcome, st), s')) :
    reduceWith ctx rules equations action e s = reduced ctx outcome
      { e with workspace := st.workspace, metrics := e.metrics.recordReductionPasses st.passes } s' := by
  rw [reduceWith, get_bind, lift_bind, h]
  dsimp only
  rw [set_bind]
  cases outcome with
  | ok a => rfl
  | error err =>
      cases err with
      | diverged start last passes =>
          rw [reduced]
          dsimp only
          rw [store_bind, get_bind, store_bind]
      | exhausted => rfl
      | term err => rfl

theorem reduceWith_cuts {rules equations : List Equation} {action : Reducer → ReduceM α}
    (h : ∀ r, Cuts v Reducer.Dry (action r)) : Cuts v Dry (reduceWith ctx rules equations action) := by
  refine .through (fun e => action ⟨ctx.order, rules, equations, e.config.maxReductionPasses,
      e.config.maxTermGrowth⟩)
    (fun e => { workspace := e.workspace })
    (fun st e => { e with workspace := st.workspace, metrics := e.metrics.recordReductionPasses st.passes })
    (reduced ctx) (fun e s => reduceWith_apply rfl) (fun e => h _) (fun _ => rfl) (fun _ => rfl)
    (fun _ => rfl) (fun _ _ => rfl) (fun _ _ => rfl) reduced_cuts ?_
  rintro _ rfl e s
  exact ⟨_, rfl, _, rfl⟩

theorem pairsOf_cuts (outcome : Except OverlapError (List Equation)) : Cuts v Dry (pairsOf ctx outcome) := by
  cases outcome with
  | ok pairs => exact .pure pairs
  | error err => exact fail_cuts _

section Drawing

variable (bounded : v < lastVar)
include bounded

theorem normalizeOne_cuts (rules equations : List Equation) (r : Ref) :
    Cuts v Dry (normalizeOne ctx rules equations r) :=
  reduceWith_cuts fun _ => Reducer.normalize_cuts bounded r

theorem normalizeWith_cuts (rules equations : List Equation) (rs : List Ref) :
    Cuts v Dry (normalizeWith ctx rules equations rs) :=
  reduceWith_cuts fun _ => Reducer.normalizeAll_cuts bounded rs

theorem normalizeSides_cuts (eq : Equation) : Cuts v Dry (normalizeSides ctx eq) := by
  refine .get (fun e => reduceWith_cuts fun r => ?_) fun _ => rfl
  exact .bind (Reducer.normalize_cuts bounded eq.lhs) fun _ =>
    .bind (Reducer.normalize_cuts bounded eq.rhs) fun _ => .pure _

theorem superposition_cuts (e : Engine) (eq : Equation) (withEquations : Bool) :
    Cuts v Superposition.Dry (superposition ctx e eq withEquations) := by
  unfold superposition
  split
  · exact Superposer.superposeAll_cuts bounded _
  · exact Superposer.superposeAll_cuts bounded _

theorem superpose_cuts (eq : Equation) (withEquations : Bool) :
    Cuts v Dry (superpose ctx eq withEquations) := by
  refine .through (fun e => superposition ctx e eq withEquations)
    (fun e => { workspace := e.workspace, seen := e.seen })
    (fun sp e => { e with workspace := sp.workspace, seen := sp.seen }) (pairsOf ctx) (fun _ _ => rfl)
    (fun e => superposition_cuts bounded e eq withEquations) (fun _ => rfl) (fun _ => rfl) (fun _ => rfl)
    (fun _ _ => rfl) (fun _ _ => rfl) pairsOf_cuts ?_
  rintro _ rfl e s
  exact ⟨_, rfl, _, rfl⟩

theorem superposeAfresh_cuts (eq : Equation) (withEquations : Bool) :
    Cuts v Dry (superposeAfresh ctx eq withEquations) := by
  refine .through (fun e => superposition ctx e eq withEquations) (fun e => { workspace := e.workspace })
    (fun sp e => { e with workspace := sp.workspace }) (pairsOf ctx) (fun _ _ => rfl)
    (fun e => superposition_cuts bounded e eq withEquations) (fun _ => rfl) (fun _ => rfl) (fun _ => rfl)
    (fun _ _ => rfl) (fun _ _ => rfl) pairsOf_cuts ?_
  rintro _ rfl e s
  exact ⟨_, rfl, _, rfl⟩

end Drawing

theorem findOrientable_cuts (eqs : List Equation) : Cuts v Dry (findOrientable ctx eqs) := by
  induction eqs with
  | nil => exact .pure none
  | cons eq eqs ih =>
      refine .bind (orientable_cuts eq) fun yes => ?_
      split
      · exact .pure _
      · exact ih

theorem pick_cuts : Cuts v Dry (pick ctx) := by
  refine .get (fun e => .bind (findOrientable_cuts _) fun found => ?_) fun _ => rfl
  split
  · exact .pure _
  · split
    · exact .pure _
    · exact fail_cuts _

theorem orient_cuts (eq : Equation) : Cuts v Dry (orient ctx eq) := by
  refine .bind (ask_cuts _ _) fun yes => ?_
  split
  · exact .pure _
  · refine .bind (ask_cuts _ _) fun yes => ?_
    split
    · exact .pure _
    · exact .pure _

theorem partitionOrientable_cuts (eqs : List Equation) : Cuts v Dry (partitionOrientable ctx eqs) := by
  induction eqs with
  | nil => exact .pure _
  | cons eq eqs ih => exact .bind (orientable_cuts eq) fun _ => .bind ih fun _ => .pure _

theorem sortWorklist_cuts : Cuts v Dry (sortWorklist ctx) := by
  refine .get (fun e => ?_) fun _ => rfl
  split
  · exact .bind (partitionOrientable_cuts _) fun _ => .bind .store fun _ =>
      .modify (fun _ => rfl) fun _ => rfl
  · exact .bind .store fun _ => .modify (fun _ => rfl) fun _ => rfl

theorem allUnorientable_cuts (eqs : List Equation) : Cuts v Dry (allUnorientable ctx eqs) := by
  induction eqs with
  | nil => exact .pure true
  | cons eq eqs ih =>
      refine .bind (orientable_cuts eq) fun yes => ?_
      split
      · exact .pure false
      · exact ih

theorem checkBudget_cuts (taken : Nat) : Cuts v Dry (checkBudget ctx taken) := by
  refine .get (fun e => ?_) fun _ => rfl
  split
  · exact fail_cuts _
  · exact .pure ()

theorem ensureUsable_cuts : Cuts v Dry (ensureUsable ctx) := by
  refine .get (fun e => ?_) fun _ => rfl
  split
  · exact fail_cuts _
  · exact .pure ()

section Drawing

variable (bounded : v < lastVar)
include bounded

theorem collapseBy_cuts (ab : Equation) (rules : List Equation) : Cuts v Dry (collapseBy ctx ab rules) := by
  induction rules with
  | nil => exact .pure ()
  | cons rule rules ih =>
      refine .bind (normalizeOne_cuts bounded _ _ _) fun lhs => ?_
      split
      · exact .bind (.modify (fun _ => rfl) fun _ => rfl) fun _ => ih
      · exact ih

theorem findComposable_cuts (before after : List Equation) :
    Cuts v Dry (findComposable ctx before after) := by
  induction after generalizing before with
  | nil => exact .pure none
  | cons rule after ih =>
      refine .bind (normalizeOne_cuts bounded _ _ _) fun rhs => ?_
      split
      · exact .pure _
      · exact ih _

theorem compose_cuts (n : Nat) : Cuts v Dry (compose ctx n) := by
  induction n with
  | zero => exact .throw _
  | succ n ih =>
      refine .get (fun e => .bind (findComposable_cuts bounded _ _) fun found => ?_) fun _ => rfl
      split
      · exact .pure ()
      · exact .bind (.modify (fun _ => rfl) fun _ => rfl) fun _ => ih

theorem simplify_cuts : Cuts v Dry (simplify ctx) :=
  .get (fun _ => .bind (normalizeWith_cuts bounded _ _ _) fun _ => .modify (fun _ => rfl) fun _ => rfl)
    fun _ => rfl

theorem addRule_cuts (eq ab : Equation) : Cuts v Dry (addRule ctx eq ab) :=
  .bind (.modify (fun _ => rfl) fun _ => rfl) fun _ => .bind (superpose_cuts bounded ab false) fun _ =>
    .get (fun _ => .bind (.lift _) fun _ => .bind (.modify (fun _ => rfl) fun _ => rfl) fun _ =>
      .get (fun _ => collapseBy_cuts bounded ab _) fun _ => rfl) fun _ => rfl

theorem collectPairs_cuts (sources : List (Equation × Bool)) : Cuts v Dry (collectPairs ctx sources) := by
  induction sources with
  | nil => exact .pure _
  | cons source sources ih =>
      exact .bind (superpose_cuts bounded _ _) fun _ =>
        .get (fun _ => .bind (.lift _) fun _ => .bind ih fun _ => .pure _) fun _ => rfl

theorem defer_cuts (eq : Equation) : Cuts v Dry (defer ctx eq) :=
  .bind (.modify (fun _ => rfl) fun _ => rfl) fun _ => .bind (collectPairs_cuts bounded _) fun _ =>
    .modify (fun _ => rfl) fun _ => rfl

theorem interreduce_cuts : Cuts v Dry (interreduce ctx) := by
  have rest : Cuts v Dry (do
      let equations ← removeSubsumed [] (← get).equations
      modify fun e => { e with equations } : EngineM Unit) :=
    .get (fun _ => .bind (.lift _) fun _ => .modify (fun _ => rfl) fun _ => rfl) fun _ => rfl
  refine .bind (compose_cuts bounded _) fun _ => .bind (simplify_cuts bounded) fun _ =>
    .get (fun e => ?_) fun _ => rfl
  split
  · exact .bind sortWorklist_cuts fun _ => rest
  · exact rest

theorem advanceInner_cuts : Cuts v Dry (advanceInner ctx) := by
  refine .bind (.modify (fun _ => rfl) fun _ => rfl) fun _ => .bind pick_cuts fun eq =>
    .bind (orient_cuts eq) fun direction => ?_
  split
  · exact .bind (addRule_cuts bounded eq _) fun _ => interreduce_cuts bounded
  · split
    · exact .modify (fun _ => rfl) fun _ => rfl
    · have deferred : Cuts v Dry (do defer ctx eq; interreduce ctx) :=
        .bind (defer_cuts bounded eq) fun _ => interreduce_cuts bounded
      refine .get (fun e => ?_) fun _ => rfl
      split
      · exact .get (fun _ => .bind .store fun _ => .bind (fail_cuts _) fun _ => deferred) fun _ => rfl
      · exact deferred

theorem advance_cuts : Cuts v Dry (advance ctx) := poisonOnError_cuts (advanceInner_cuts bounded)

theorem normalizePairs_cuts (found pairs : List Equation) : Cuts v Dry (normalizePairs ctx found pairs) := by
  induction pairs generalizing found with
  | nil => exact .pure found
  | cons pair pairs ih => exact .bind (normalizeSides_cuts bounded pair) fun _ => ih _

theorem pairsMeet_cuts (pairs : List Equation) : Cuts v Dry (pairsMeet ctx pairs) := by
  induction pairs with
  | nil => exact .pure true
  | cons pair pairs ih =>
      refine .bind (normalizeSides_cuts bounded pair) fun eq => ?_
      split
      · exact ih
      · exact .pure false

theorem sourcesJoin_cuts (sources : List (Equation × Bool)) : Cuts v Dry (sourcesJoin ctx sources) := by
  induction sources with
  | nil => exact .pure true
  | cons source sources ih =>
      refine .bind (superposeAfresh_cuts bounded _ _) fun pairs =>
        .bind (normalizePairs_cuts bounded [] pairs) fun reduced =>
        .get (fun e => .bind (.lift _) fun left => .bind (pairsMeet_cuts bounded left) fun yes => ?_)
          fun _ => rfl
      split
      · exact ih
      · exact .pure false

theorem checkTerminal_cuts : Cuts v Dry (checkTerminal ctx) := by
  refine .get (fun e => ?_) fun _ => rfl
  split
  · exact .pure true
  · exact .pure true
  · exact fail_cuts _
  · refine .get (fun e => ?_) fun _ => rfl
    dsimp only
    split
    · exact .bind (.modify (fun _ => rfl) fun _ => rfl) fun _ => .pure true
    · refine .bind (allUnorientable_cuts _) fun none => ?_
      split
      · exact .pure false
      · have joins : Cuts v Dry (allPairsJoin ctx) :=
          .get (fun _ => sourcesJoin_cuts bounded _) fun _ => rfl
        refine .bind (poisonOnError_cuts joins) fun joined => ?_
        split
        · exact .pure false
        · exact .bind (.modify (fun _ => rfl) fun _ => rfl) fun _ => .pure true

theorem step_cuts : Cuts v Dry (step ctx) := by
  refine .bind (checkTerminal_cuts bounded) fun ended => ?_
  split
  · exact .pure true
  · exact .bind (advance_cuts bounded) fun _ => .pure false

theorem completeFrom_cuts (fuel taken : Nat) : Cuts v Dry (completeFrom ctx fuel taken) := by
  induction fuel generalizing taken with
  | zero => exact .throw _
  | succ fuel ih =>
      refine .bind (checkTerminal_cuts bounded) fun ended => ?_
      split
      · exact .pure ()
      · exact .bind (checkBudget_cuts taken) fun _ => .bind (advance_cuts bounded) fun _ => ih _

theorem complete_cuts : Cuts v Dry (complete ctx) :=
  .bind (.modify (fun _ => rfl) fun _ => rfl) fun _ => completeFrom_cuts bounded _ 0

theorem equalFrom_cuts (eq : Equation) (fuel taken : Nat) : Cuts v Dry (equalFrom ctx eq fuel taken) := by
  induction fuel generalizing taken with
  | zero => exact .throw _
  | succ fuel ih =>
      refine .bind (normalizeSides_cuts bounded eq) fun sides => ?_
      split
      · exact .pure true
      refine .bind (checkTerminal_cuts bounded) fun ended => ?_
      split
      · exact .pure false
      · exact .bind (checkBudget_cuts taken) fun _ => .bind (advance_cuts bounded) fun _ => ih _

theorem equal_cuts (eq : Equation) : Cuts v Dry (equal ctx eq) :=
  .bind ensureUsable_cuts fun _ => .bind (reserve_cuts _) fun _ => .bind (reserve_cuts _) fun _ =>
    .bind (.modify (fun _ => rfl) fun _ => rfl) fun _ => equalFrom_cuts bounded eq _ 0

theorem reduce_cuts (r : Ref) : Cuts v Dry (reduce ctx r) :=
  .bind ensureUsable_cuts fun _ => .bind (reserve_cuts r) fun _ =>
    .get (fun _ => normalizeOne_cuts bounded _ _ r) fun _ => rfl

theorem normalForm_cuts (r : Ref) : Cuts v Dry (normalForm ctx r) := by
  refine .bind ensureUsable_cuts fun _ => .get (fun e => .bind (.lift _) fun ground => ?_) fun _ => rfl
  split
  · split
    · exact .bind (fail_cuts _) fun _ => reduce_cuts bounded r
    · exact reduce_cuts bounded r
  · split
    · exact .bind (fail_cuts _) fun _ => reduce_cuts bounded r
    · exact reduce_cuts bounded r

namespace Call

/-- Why a call fails, if it does. -/
def halt? (ctx : Context) (c : Call) (e : Engine) (s : Store) : Option Halt :=
  match c with
  | .step => failure? (answer (Engine.step ctx) e s)
  | .complete => failure? (answer (Engine.complete ctx) e s)
  | .equal eq => failure? (answer (Engine.equal ctx eq) e s)
  | .reduce r => failure? (answer (Engine.reduce ctx r) e s)
  | .normalForm r => failure? (answer (Engine.normalForm ctx r) e s)
  | .setBudget _ _ => none
  | .cancel => none
where
  failure? {α : Type} : Except Halt α → Option Halt
    | .error halt => some halt
    | .ok _ => none

omit bounded in
theorem after_of_cuts {x : EngineM α} (h : Cuts v Dry x) (e : Engine) (s : Store) :
    (supply e).Onward (supply (after x e s).1) ∧ (Before v e →
      Before v (after x e s).1 ∧ after x (cut v e) s = (cut v (after x e s).1, (after x e s).2) ∨
      Past v (after x e s).1 ∧
        ∃ halt, halt?.failure? (answer x (cut v e) s) = some halt ∧ Dry halt) := by
  refine ⟨h.onward e s, fun before => ?_⟩
  rcases h.cut e s before with ⟨before', same⟩ | ⟨past, ⟨halt, failed, dry⟩, -⟩
  · exact .inl ⟨before', by rw [after, same, after]⟩
  · exact .inr ⟨past, halt, by rw [answer, failed, halt?.failure?], dry⟩

/-- A call whose source ends before a variable does what it does with the whole source, or it fails for want
of a variable, where the whole source passes the one in question. -/
theorem run_cut (ctx : Context) (c : Call) (e : Engine) (s : Store) :
    (supply e).Onward (supply (c.run ctx e s).1) ∧ (Before v e →
      Before v (c.run ctx e s).1 ∧ c.run ctx (cut v e) s = (cut v (c.run ctx e s).1, (c.run ctx e s).2) ∨
      Past v (c.run ctx e s).1 ∧ ∃ halt, c.halt? ctx (cut v e) s = some halt ∧ Dry halt) := by
  cases c with
  | step => exact after_of_cuts (step_cuts bounded) e s
  | complete => exact after_of_cuts (complete_cuts bounded) e s
  | equal eq => exact after_of_cuts (equal_cuts bounded eq) e s
  | reduce r => exact after_of_cuts (reduce_cuts bounded r) e s
  | normalForm r => exact after_of_cuts (normalForm_cuts bounded r) e s
  | setBudget maxSteps timeLimit => exact ⟨.refl _, fun before => .inl ⟨before, rfl⟩⟩
  | cancel => exact ⟨.refl _, fun before => .inl ⟨before, rfl⟩⟩

end Call

end Drawing

end OrderedCompletion.Engine
