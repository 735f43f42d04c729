import OrderedCompletion.Proofs.Pace
import OrderedCompletion.Proofs.Preservation

/-! How a run stands: it goes on until it is at its end or fails, and nothing moves it after that. -/

namespace OrderedCompletion.Engine

open TermM (Yields)

variable {ctx : Context} {e e' e'' e₁ : Engine} {s s₁ : Store} {eq : Equation} {α β : Type} {n : Nat}

/-- Equations, rules, steps and status are the same. -/
structure Settled (e e' : Engine) : Prop where
  equations : e'.equations = e.equations
  rules : e'.rules = e.rules
  steps : e'.steps = e.steps
  status : e'.status = e.status

theorem Settled.refl (e : Engine) : Settled e e := ⟨rfl, rfl, rfl, rfl⟩

theorem Settled.trans (h : Settled e e') (h' : Settled e' e'') : Settled e e'' :=
  ⟨h'.equations.trans h.equations, h'.rules.trans h.rules, h'.steps.trans h.steps, h'.status.trans h.status⟩

theorem Unmoved.settled (h : Unmoved e e') : Settled e e' := ⟨h.equations, h.rules, h.steps, h.status⟩

/-- A run that does not go on stays as it is. -/
def OneWay (e e' : Engine) : Prop := e.status ≠ .running → Settled e e'

theorem OneWay.trans (h : OneWay e e') (h' : OneWay e' e'') : OneWay e e'' := by
  intro still
  have settled := h still
  exact settled.trans (h' (settled.status ▸ still))

theorem Settled.oneWay (h : Settled e e') : OneWay e e' := fun _ => h

theorem OneWay.of_running (running : e.status = .running) : OneWay e e' := fun still => absurd running still

theorem OneWay.status_eq_or (h : OneWay e e') : e'.status = e.status ∨ e.status = .running ∧
    (e'.status = .complete ∨ e'.status = .groundComplete ∨ e'.status = .failed) := by
  by_cases running : e.status = .running
  · cases status : e'.status with
    | running => exact .inl running.symm
    | complete => exact .inr ⟨running, .inl rfl⟩
    | groundComplete => exact .inr ⟨running, .inr (.inl rfl)⟩
    | failed => exact .inr ⟨running, .inr (.inr rfl)⟩
  · exact .inl (h running).status

/-- The run has failed exactly if the call may not be tried again. -/
def Blames (h : Halt) (e' : Engine) : Prop :=
  ∀ err, h = .error err → (e'.status = .failed ↔ err.isRetryable = false)

/-- A spent budget is reported with the steps since there were `taken` of them. -/
def Reports (e : Engine) (taken : Nat) (h : Halt) (e' : Engine) : Prop :=
  ∀ n reason shot, h = .error ⟨.budgetExceeded n reason, shot⟩ → e'.steps + taken = e.steps + n

theorem Blames.of_final {h : Halt} (final : h.Final) (failed : e'.status = .failed) : Blames h e' :=
  fun err same => iff_of_true failed (final err same)

theorem Reports.of_final {h : Halt} {taken : Nat} (final : h.Final) : Reports e taken h e' := by
  rintro n reason shot rfl
  cases final _ rfl

/-- Equations, rules and steps are the same; the run may have come to its end. -/
structure Stands (e e' : Engine) : Prop where
  equations : e'.equations = e.equations
  rules : e'.rules = e.rules
  steps : e'.steps = e.steps

/-- A run that goes on may come to its end or fail here. -/
theorem checkTerminal_yields : Yields e (checkTerminal ctx)
    (fun yes e' => OneWay e e' ∧ Stands e e' ∧ (yes = false → e.status = .running ∧ e'.status = .running))
    fun h e' => OneWay e e' ∧ h.Final ∧ e'.status = .failed := by
  rw [checkTerminal]
  have still := (Settled.refl e).oneWay
  refine .bindGet ?_
  split
  · exact .pure ⟨still, ⟨rfl, rfl, rfl⟩, fun no => by cases no⟩
  · exact .pure ⟨still, ⟨rfl, rfl, rfl⟩, fun no => by cases no⟩
  · rename_i failed
    exact fail_yields fun shot => ⟨still, final_of_failure rfl shot, failed⟩
  · rename_i running
    refine .bindGet ?_
    dsimp only
    split
    · exact .bindModify (.pure ⟨.of_running running, ⟨rfl, rfl, rfl⟩, fun no => by cases no⟩)
    · refine Yields.bind ((allUnorientable_sure _).mono (fun _ _ h => h) fun _ _ no => no.elim) ?_
      intro none e₁ unmoved₁
      have running₁ := unmoved₁.status.trans running
      split
      · exact .pure ⟨.of_running running, ⟨unmoved₁.equations, unmoved₁.rules, unmoved₁.steps⟩,
          fun _ => ⟨running, running₁⟩⟩
      · refine Yields.bind (poisonOnError_yields allPairsJoin_idles fun h e₂ stopped =>
          ⟨.of_running running, stopped.2, rfl⟩) ?_
        rintro joined e₂ ⟨unmoved₂, -⟩
        have unmoved := unmoved₁.trans unmoved₂
        have stands : Stands e e₂ := ⟨unmoved.equations, unmoved.rules, unmoved.steps⟩
        split
        · exact .pure ⟨.of_running running, stands, fun _ => ⟨running, unmoved.status.trans running⟩⟩
        · exact .bindModify (.pure ⟨.of_running running,
            ⟨stands.equations, stands.rules, stands.steps⟩, fun no => by cases no⟩)

theorem advance_yields : Yields e (advance ctx) (fun _ e' => e'.steps = e.steps + 1)
    fun h e' => h.Final ∧ e'.status = .failed :=
  (poisonOnError_yields advanceInner_yields fun _ _ h => ⟨h.2, rfl⟩).mono (fun _ _ h => h.1.steps)
    fun _ _ h => h

theorem step_yields : Yields e (step ctx) (fun _ e' => OneWay e e')
    fun h e' => OneWay e e' ∧ h.Final ∧ e'.status = .failed := by
  rw [step]
  refine checkTerminal_yields.bind ?_
  rintro yes e₁ ⟨oneWay, -, on⟩
  split
  · exact .pure oneWay
  · rename_i no
    have goes : ∀ {e'}, OneWay e e' := .of_running (on (by simpa using no)).1
    exact (advance_yields.mono (fun _ _ _ => trivial) fun _ _ h => ⟨goes, h⟩).bind fun _ e₂ _ => .pure goes

theorem checkBudget_yields {taken : Nat} : Yields e (checkBudget ctx taken) (fun _ e' => e' = e)
    fun h e' => e' = e ∧ ∃ reason shot, h = .error ⟨.budgetExceeded taken reason, shot⟩ := by
  rw [checkBudget]
  refine .bindGet ?_
  split
  · exact fail_yields fun shot => ⟨rfl, _, shot, rfl⟩
  · exact .pure rfl

/-- The budget is checked while the run goes on. -/
theorem spent_blames_reports {taken : Nat} {h : Halt} (running : e'.status = .running)
    (steps : e'.steps = e.steps) (spent : ∃ reason shot, h = .error ⟨.budgetExceeded taken reason, shot⟩) :
    Blames h e' ∧ Reports e taken h e' := by
  obtain ⟨reason, shot, rfl⟩ := spent
  refine ⟨?_, ?_⟩
  · rintro err ⟨⟩
    rw [running]
    exact ⟨nofun, nofun⟩
  · rintro n reason' shot' ⟨⟩
    rw [steps]

/-- A report counts from any step before. -/
theorem Reports.earlier {taken : Nat} {h : Halt} (reports : Reports e₁ (taken + 1) h e')
    (steps : e₁.steps = e.steps + 1) : Reports e taken h e' := by
  intro n reason shot same
  have := reports n reason shot same
  omega

theorem completeFrom_yields {fuel taken : Nat} : Yields e (completeFrom ctx fuel taken)
    (fun _ e' => OneWay e e') fun h e' => OneWay e e' ∧ Blames h e' ∧ Reports e taken h e' := by
  induction fuel generalizing e taken with
  | zero => exact .throw ⟨(Settled.refl e).oneWay, nofun, nofun⟩
  | succ fuel ih =>
      rw [completeFrom]
      refine (checkTerminal_yields.mono (fun _ _ h => h) fun _ _ h =>
        ⟨h.1, .of_final h.2.1 h.2.2, .of_final h.2.1⟩).bind ?_
      rintro yes e₁ ⟨oneWay, stands, on⟩
      split
      · exact .pure oneWay
      · rename_i no
        obtain ⟨running, running₁⟩ := on (by simpa using no)
        have goes : ∀ {e'}, OneWay e e' := .of_running running
        refine (checkBudget_yields.mono (fun _ _ h => h) ?_).bind ?_
        · rintro h _ ⟨rfl, spent⟩
          exact ⟨goes, spent_blames_reports running₁ stands.steps spent⟩
        rintro _ _ rfl
        refine (advance_yields.mono (fun _ _ h => h) fun _ _ h =>
          ⟨goes, .of_final h.1 h.2, .of_final h.1⟩).bind fun _ e₂ counted => ?_
        exact ih.mono (fun _ _ _ => goes) fun _ _ h =>
          ⟨goes, h.2.1, h.2.2.earlier (counted.trans (congrArg (· + 1) stands.steps))⟩

theorem setStop_settled (stop : Bool) : Settled e (e.setStop stop) := ⟨rfl, rfl, rfl, rfl⟩

theorem complete_yields : Yields e (complete ctx) (fun _ e' => OneWay e e')
    fun h e' => OneWay e e' ∧ Blames h e' ∧ Reports e 0 h e' := by
  rw [complete]
  exact .bindModify (completeFrom_yields.mono (fun _ _ h => (setStop_settled false).oneWay.trans h)
    fun _ _ h => ⟨(setStop_settled false).oneWay.trans h.1, h.2⟩)

/-- What a query does before it looks at its terms. -/
def openQuery (ctx : Context) (eq : Equation) : EngineM Unit := do
  ensureUsable ctx
  reserve eq.lhs
  reserve eq.rhs
  modify (·.setStop false)

/-- One round of a query about an equation; without an answer it has taken a step. -/
def equalRound (ctx : Context) (eq : Equation) (taken : Nat) : EngineM (Option Bool) := do
  if (← normalizeSides ctx eq).isTrivial then return some true
  if ← checkTerminal ctx then return some false
  checkBudget ctx taken
  advance ctx
  return none

theorem equal_eq (ctx : Context) (eq : Equation) :
    equal ctx eq = openQuery ctx eq >>= fun _ => equalFrom ctx eq ctx.fuel 0 := by
  simp only [equal, openQuery, bind_assoc]

theorem equalFrom_succ (ctx : Context) (eq : Equation) (fuel taken : Nat) :
    equalFrom ctx eq (fuel + 1) taken = equalRound ctx eq taken >>= fun out => match out with
      | some yes => return yes
      | none => equalFrom ctx eq fuel (taken + 1) := by
  rw [equalFrom, equalRound, bind_assoc]
  refine bind_congr fun sides => ?_
  split
  · rw [pure_bind]
  · rw [bind_assoc]
    refine bind_congr fun ended => ?_
    split
    · rw [pure_bind]
    · simp only [bind_assoc, pure_bind]

theorem ensureUsable_yields : Yields e (ensureUsable ctx) (fun _ e' => e' = e)
    fun h e' => e' = e ∧ e.status = .failed ∧
      ∃ shot, h = .error ⟨.internal "engine failed in an earlier step", shot⟩ := by
  rw [ensureUsable]
  refine .bindGet ?_
  split
  · rename_i failed
    exact fail_yields fun shot => ⟨rfl, failed, shot, rfl⟩
  · exact .pure rfl

theorem openQuery_yields : Yields e (openQuery ctx eq) (fun _ e' => Settled e e')
    fun h e' => e' = e ∧ e.status = .failed ∧
      ∃ shot, h = .error ⟨.internal "engine failed in an earlier step", shot⟩ := by
  rw [openQuery]
  refine ensureUsable_yields.bind ?_
  rintro _ _ rfl
  refine ((reserve_sure _).mono (fun _ _ h => h) fun _ _ no => no.elim).bind fun _ e₁ unmoved₁ => ?_
  refine ((reserve_sure _).mono (fun _ _ h => h) fun _ _ no => no.elim).bind fun _ e₂ unmoved₂ => ?_
  have unmoved := unmoved₁.trans unmoved₂
  exact fun _ => ⟨unmoved.equations, unmoved.rules, unmoved.steps, unmoved.status⟩

theorem equalRound_yields {taken : Nat} : Yields e (equalRound ctx eq taken)
    (fun out e' => OneWay e e' ∧ (out = none → e'.steps = e.steps + 1))
    fun h e' => OneWay e e' ∧ Reports e taken h e' := by
  rw [equalRound]
  refine ((normalizeSides_idles eq).mono (fun _ _ h => h) fun _ _ h =>
    ⟨h.1.settled.oneWay, .of_final h.2⟩).bind ?_
  rintro sides e₁ ⟨unmoved₁, -⟩
  have here := unmoved₁.settled.oneWay
  split
  · exact .pure ⟨here, nofun⟩
  · refine (checkTerminal_yields.mono (fun _ _ h => h) fun _ _ h =>
      ⟨here.trans h.1, .of_final h.2.1⟩).bind ?_
    rintro yes e₂ ⟨oneWay, stands, on⟩
    split
    · exact .pure ⟨here.trans oneWay, nofun⟩
    · rename_i no
      obtain ⟨running₁, running₂⟩ := on (by simpa using no)
      have goes : ∀ {e'}, OneWay e e' := .of_running (unmoved₁.status.symm.trans running₁)
      have steps := stands.steps.trans unmoved₁.steps
      refine (checkBudget_yields.mono (fun _ _ h => h) ?_).bind ?_
      · rintro h _ ⟨rfl, spent⟩
        exact ⟨goes, (spent_blames_reports running₂ steps spent).2⟩
      rintro _ _ rfl
      refine (advance_yields.mono (fun _ _ h => h) fun _ _ h => ⟨goes, .of_final h.1⟩).bind ?_
      exact fun _ e₃ counted => .pure ⟨goes, fun _ => counted.trans (congrArg (· + 1) steps)⟩

theorem equalFrom_yields {fuel taken : Nat} : Yields e (equalFrom ctx eq fuel taken)
    (fun _ e' => OneWay e e') fun h e' => OneWay e e' ∧ Reports e taken h e' := by
  induction fuel generalizing e taken with
  | zero => exact .throw ⟨(Settled.refl e).oneWay, nofun⟩
  | succ fuel ih =>
      rw [equalFrom_succ]
      refine equalRound_yields.bind ?_
      rintro out e₁ ⟨oneWay, counted⟩
      split
      · exact .pure oneWay
      · exact ih.mono (fun _ _ h => oneWay.trans h) fun _ _ h =>
          ⟨oneWay.trans h.1, h.2.earlier (counted rfl)⟩

theorem equal_yields : Yields e (equal ctx eq) (fun _ e' => OneWay e e')
    fun h e' => OneWay e e' ∧ Reports e 0 h e' := by
  rw [equal_eq]
  refine (openQuery_yields.mono (fun _ _ h => h) ?_).bind fun _ e₁ settled => ?_
  · rintro h _ ⟨rfl, -, shot, rfl⟩
    exact ⟨(Settled.refl _).oneWay, nofun⟩
  · refine equalFrom_yields.mono (fun _ _ h => settled.oneWay.trans h) fun _ _ h =>
      ⟨settled.oneWay.trans h.1, fun n reason shot same => ?_⟩
    rw [← settled.steps]
    exact h.2 n reason shot same

theorem reduce_yields (r : Ref) : Yields e (reduce ctx r) (fun _ e' => Settled e e')
    fun _ e' => Settled e e' := by
  rw [reduce]
  refine (ensureUsable_yields.mono (fun _ _ h => h) fun _ _ h => h.1 ▸ .refl e).bind ?_
  rintro _ _ rfl
  refine ((reserve_sure _).mono (fun _ _ h => h) fun _ _ no => no.elim).bind fun _ e₁ unmoved₁ => ?_
  exact .bindGet (reduceWith_idles.mono (fun _ _ h => (unmoved₁.trans h.1).settled)
    fun _ _ h => (unmoved₁.trans h.1).settled)

theorem normalForm_yields (r : Ref) : Yields e (normalForm ctx r) (fun _ e' => Settled e e')
    fun _ e' => Settled e e' := by
  rw [normalForm]
  have refused : ∀ failure, Yields e (fail ctx failure >>= fun _ : PUnit => reduce ctx r)
      (fun _ e' => Settled e e') fun _ e' => Settled e e' := fun failure =>
    Yields.bind (fail_yields (Q := fun _ _ => False) fun _ => .refl e) fun _ _ no => no.elim
  refine (ensureUsable_yields.mono (fun _ _ h => h) fun _ _ h => h.1 ▸ .refl e).bind ?_
  rintro _ _ rfl
  refine .bindGet (.bindLift fun ground => ?_)
  dsimp only
  split
  · split
    · exact refused _
    · exact reduce_yields r
  · split
    · exact refused _
    · exact reduce_yields r

/-- The call is refused because the run has failed. -/
def Refused (x : EngineM α) (e : Engine) (s : Store) : Prop :=
  ∃ shot, answer x e s = .error (.error ⟨.internal "engine failed in an earlier step", shot⟩)

theorem refused_of_yields {x : EngineM α} (h : Yields e x (fun _ _ => False) fun h _ =>
    ∃ shot, h = .error ⟨.internal "engine failed in an earlier step", shot⟩) : Refused x e s := by
  have out := h s
  rw [Refused, answer]
  cases outcome : (x e s).1.1 with
  | ok a =>
      rw [outcome] at out
      exact out.elim
  | error halt =>
      rw [outcome] at out
      obtain ⟨shot, rfl⟩ := out
      exact ⟨shot, rfl⟩

theorem checkTerminal_refused (failed : e.status = .failed) :
    Yields e (checkTerminal ctx) (fun _ _ => False) fun h _ =>
      ∃ shot, h = .error ⟨.internal "engine failed in an earlier step", shot⟩ := by
  rw [checkTerminal]
  refine .bindGet ?_
  rw [failed]
  exact fail_yields fun shot => ⟨shot, rfl⟩

theorem ensureUsable_refused (failed : e.status = .failed) :
    Yields e (ensureUsable ctx) (fun _ _ => False) fun h _ =>
      ∃ shot, h = .error ⟨.internal "engine failed in an earlier step", shot⟩ := by
  rw [ensureUsable]
  refine .bindGet ?_
  rw [if_pos failed]
  exact fail_yields fun shot => ⟨shot, rfl⟩

/-- All calls of a failed run are refused. -/
theorem refused_of_failed (fuel : 0 < ctx.fuel) (failed : e.status = .failed) :
    Refused (step ctx) e s ∧ Refused (complete ctx) e s ∧
      ∀ eq r, Refused (equal ctx eq) e s ∧ Refused (reduce ctx r) e s ∧ Refused (normalForm ctx r) e s := by
  refine ⟨refused_of_yields ?_, refused_of_yields ?_, fun eq r => ⟨refused_of_yields ?_,
    refused_of_yields ?_, refused_of_yields ?_⟩⟩
  · exact (checkTerminal_refused failed).bind fun _ _ no => no.elim
  · obtain ⟨n, same⟩ := Nat.exists_eq_succ_of_ne_zero fuel.ne'
    rw [complete, same]
    refine .bindModify ?_
    rw [completeFrom]
    have cleared : (e.setStop false).status = .failed := failed
    exact (checkTerminal_refused cleared).bind fun _ _ no => no.elim
  · exact (ensureUsable_refused failed).bind fun _ _ no => no.elim
  · exact (ensureUsable_refused failed).bind fun _ _ no => no.elim
  · exact (ensureUsable_refused failed).bind fun _ _ no => no.elim

theorem Yields.of_error {x : EngineM α} {Q : α → Engine → Prop} {F : Halt → Engine → Prop} {h : Halt}
    (yields : Yields e x Q F) (error : answer x e s = .error h) : F h (after x e s).1 := by
  have out := yields s
  rw [answer] at error
  rw [error] at out
  exact out

/-- Where a query about an equation stands before it normalizes both sides for another time: so many steps
were taken since the call began. -/
inductive Asks (ctx : Context) (eq : Equation) (e : Engine) (s : Store) : Nat → Engine → Store → Prop
  | opened : answer (openQuery ctx eq) e s = .ok () →
      Asks ctx eq e s 0 (after (openQuery ctx eq) e s).1 (after (openQuery ctx eq) e s).2
  | round {n : Nat} {e₁ : Engine} {s₁ : Store} : Asks ctx eq e s n e₁ s₁ →
      answer (equalRound ctx eq n) e₁ s₁ = .ok none →
      Asks ctx eq e s (n + 1) (after (equalRound ctx eq n) e₁ s₁).1 (after (equalRound ctx eq n) e₁ s₁).2

/-- The rest of the call starts from there. -/
theorem Asks.equal_eq (h : Asks ctx eq e s n e₁ s₁) (left : Nat) (fuel : n + left = ctx.fuel) :
    equal ctx eq e s = equalFrom ctx eq left n e₁ s₁ := by
  induction h generalizing left with
  | opened ok =>
      rw [Engine.equal_eq, TermM.bind_apply]
      rw [answer] at ok
      rw [ok, ← fuel, Nat.zero_add]
      rfl
  | @round n e₁ s₁ _ ok ih =>
      rw [ih (left + 1) (by omega), equalFrom_succ, TermM.bind_apply]
      rw [answer] at ok
      rw [ok]
      rfl

/-- A failure to normalize ends the query and leaves the run as it was before. -/
theorem Asks.normalize_error {h : Halt} (asks : Asks ctx eq e s n e₁ s₁) (fuel : n < ctx.fuel)
    (error : answer (normalizeSides ctx eq) e₁ s₁ = .error h) :
    answer (equal ctx eq) e s = .error h ∧ Settled e₁ (after (equal ctx eq) e s).1 := by
  obtain ⟨left, same⟩ := Nat.exists_eq_add_of_lt fuel
  have unmoved := (Yields.of_error (normalizeSides_idles eq) error).1.settled
  have ends : equal ctx eq e s = ((.error h, (normalizeSides ctx eq e₁ s₁).1.2),
      (normalizeSides ctx eq e₁ s₁).2) := by
    rw [asks.equal_eq (left + 1) (by omega), equalFrom, TermM.bind_apply]
    rw [answer] at error
    rw [error]
  rw [answer, after, ends]
  exact ⟨rfl, unmoved⟩

/-- What the calls of a run answer by how it stands, and how they leave it when they fail. -/
structure Respects (ctx : Context) (e : Engine) (s : Store) : Prop where
  refused : e.status = .failed → Refused (step ctx) e s ∧ Refused (complete ctx) e s ∧
    ∀ eq r, Refused (equal ctx eq) e s ∧ Refused (reduce ctx r) e s ∧ Refused (normalForm ctx r) e s
  step : ∀ err, answer (step ctx) e s = .error (.error err) →
    ((after (step ctx) e s).1.status = .failed ↔ err.isRetryable = false)
  complete : ∀ err, answer (complete ctx) e s = .error (.error err) →
    ((after (complete ctx) e s).1.status = .failed ↔ err.isRetryable = false)
  completeBudget : ∀ n reason shot,
    answer (Engine.complete ctx) e s = .error (.error ⟨.budgetExceeded n reason, shot⟩) →
    (after (Engine.complete ctx) e s).1.steps = e.steps + n
  equalBudget : ∀ eq n reason shot,
    answer (equal ctx eq) e s = .error (.error ⟨.budgetExceeded n reason, shot⟩) →
    (after (equal ctx eq) e s).1.steps = e.steps + n
  reduce : ∀ r h, answer (reduce ctx r) e s = .error h → Settled e (after (reduce ctx r) e s).1
  normalForm : ∀ r h, answer (normalForm ctx r) e s = .error h →
    Settled e (after (normalForm ctx r) e s).1
  equal : ∀ eq n e₁ s₁ h, Asks ctx eq e s n e₁ s₁ → n < ctx.fuel →
    answer (normalizeSides ctx eq) e₁ s₁ = .error h →
    answer (equal ctx eq) e s = .error h ∧ Settled e₁ (after (equal ctx eq) e s).1

theorem respects (fuel : 0 < ctx.fuel) (e : Engine) (s : Store) : Respects ctx e s where
  refused := refused_of_failed fuel
  step := fun err error => by
    obtain ⟨-, final, failed⟩ := Yields.of_error step_yields error
    exact Blames.of_final final failed err rfl
  complete := fun err error => (Yields.of_error complete_yields error).2.1 err rfl
  completeBudget := fun n reason shot error => (Yields.of_error complete_yields error).2.2 n reason shot rfl
  equalBudget := fun eq n reason shot error => (Yields.of_error equal_yields error).2 n reason shot rfl
  reduce := fun r h error => Yields.of_error (reduce_yields r) error
  normalForm := fun r h error => Yields.of_error (normalForm_yields r) error
  equal := fun _ _ _ _ _ asks fuel error => asks.normalize_error fuel error

/-- What calls make of a run, each with a context and a store of its own. -/
inductive Leads (e : Engine) : Engine → Prop
  | refl : Leads e e
  | call {e' : Engine} (c : Call) (ctx : Context) (s : Store) : Leads e e' → Leads e (c.run ctx e' s).1

/-- What holds however a call ends holds of the run that it leaves. -/
theorem holds_after {x : EngineM α} {P : Engine → Prop} (h : Yields e x (fun _ => P) fun _ => P) :
    P (after x e s).1 := by
  have out := h s
  rw [after]
  cases outcome : (x e s).1.1 with
  | ok a =>
      rw [outcome] at out
      exact out
  | error halt =>
      rw [outcome] at out
      exact out

theorem OneWay.of_yields {x : EngineM α} {F : Halt → Engine → Prop}
    (yields : Yields e x (fun _ e' => OneWay e e') F) (err : ∀ h e', F h e' → OneWay e e') :
    OneWay e (after x e s).1 :=
  holds_after (yields.mono (fun _ _ h => h) err)

theorem Call.oneWay (c : Call) : OneWay e (c.run ctx e s).1 := by
  cases c with
  | step => exact .of_yields step_yields fun _ _ h => h.1
  | complete => exact .of_yields complete_yields fun _ _ h => h.1
  | equal eq => exact .of_yields equal_yields fun _ _ h => h.1
  | reduce r =>
      exact .of_yields ((reduce_yields r).mono (fun _ _ h => h.oneWay) fun _ _ h => h) fun _ _ h => h.oneWay
  | normalForm r =>
      exact .of_yields ((normalForm_yields r).mono (fun _ _ h => h.oneWay) fun _ _ h => h)
        fun _ _ h => h.oneWay
  | setBudget maxSteps timeLimit => exact fun _ => ⟨rfl, rfl, rfl, rfl⟩
  | cancel => exact (setStop_settled true).oneWay

theorem Leads.oneWay (h : Leads e e') : OneWay e e' := by
  induction h with
  | refl => exact (Settled.refl e).oneWay
  | call c ctx s _ ih => exact ih.trans c.oneWay

/-- The status changes at most once, and then for good; errors respect it. -/
theorem status_oneWay (fuel : 0 < ctx.fuel) (h : Leads e e') :
    (e'.status = e.status ∨ e.status = .running ∧
      (e'.status = .complete ∨ e'.status = .groundComplete ∨ e'.status = .failed)) ∧
    (e.status ≠ .running → Settled e e') ∧ Respects ctx e' s :=
  ⟨h.oneWay.status_eq_or, h.oneWay, respects fuel e' s⟩

/-- The two constants are equal at the end of the run on them, and another step does not move it. -/
theorem status_oneWay_twoConstants :
    let done := (Problem.twoConstants.runCalls Problem.twoConstantsContext [.complete]).1
    let store := (Problem.twoConstants.runCalls Problem.twoConstantsContext [.complete]).2
    done.status = .complete ∧
      Settled done (Call.step.run Problem.twoConstantsContext done store).1 ∧
      Respects Problem.twoConstantsContext (Call.step.run Problem.twoConstantsContext done store).1 store := by
  intro done store
  have ended : done.status = .complete := by decide +kernel
  have still : done.status ≠ .running := by
    rw [ended]
    exact nofun
  have fuel : 0 < Problem.twoConstantsContext.fuel := by decide
  have leads : Leads done (Call.step.run Problem.twoConstantsContext done store).1 :=
    .call .step Problem.twoConstantsContext store .refl
  obtain ⟨-, settled, respects⟩ := status_oneWay (s := store) fuel leads
  exact ⟨ended, settled still, respects⟩

end OrderedCompletion.Engine
