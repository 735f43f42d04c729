import OrderedCompletion.Proofs.Conservation
import OrderedCompletion.Proofs.GroundCompleteness
import OrderedCompletion.Proofs.Lifecycle

/-! No rule and no equation is kept twice, and of the equations none is trivial or an instance of another. -/

namespace OrderedCompletion

namespace Engine

open TermM (Yields)

variable {ctx : Context} {e e' e'' e₁ : Engine} {s : Store} {eq : Equation} {α : Type}

/-- All rules differ, all equations differ, and none is trivial. A run that failed half-way may be
different. -/
def Tidy (e : Engine) : Prop := e.status ≠ .failed → e.rules.Nodup ∧ Proper e.equations

/-- A tidy run stays so. -/
def StaysTidy (e e' : Engine) : Prop := Tidy e → Tidy e'

theorem StaysTidy.refl (e : Engine) : StaysTidy e e := id

theorem StaysTidy.trans (h : StaysTidy e e') (h' : StaysTidy e' e'') : StaysTidy e e'' := fun tidy => h' (h tidy)

theorem StaysTidy.of_failed (failed : e'.status = .failed) : StaysTidy e e' := fun _ live => absurd failed live

theorem Settled.staysTidy (h : Settled e e') : StaysTidy e e' := by
  intro tidy live
  rw [h.rules, h.equations]
  exact tidy (h.status ▸ live)

/-- What stands still while it does not fail stays tidy. -/
theorem Stands.staysTidy (h : Stands e e') (oneWay : OneWay e e') : StaysTidy e e' := by
  intro tidy live
  rw [h.rules, h.equations]
  refine tidy fun failed => live ?_
  have still : e.status ≠ .running := by
    rw [failed]
    exact nofun
  exact (oneWay still).status.trans failed

/-- The call keeps a run tidy, if it succeeds and if it fails. -/
abbrev KeepsTidy (e : Engine) (x : EngineM α) : Prop :=
  Yields e x (fun _ e' => StaysTidy e e') fun _ e' => StaysTidy e e'

theorem checkTerminal_keepsTidy : KeepsTidy e (checkTerminal ctx) :=
  checkTerminal_yields.mono (fun _ _ h => h.2.1.staysTidy h.1) fun _ _ h => .of_failed h.2.2

theorem advance_keepsTidy : KeepsTidy e (advance ctx) := by
  refine (poisonOnError_yields advanceInner_yields fun _ _ _ => StaysTidy.of_failed rfl).mono ?_
    fun _ _ h => h
  rintro _ e' ⟨counts, proper⟩ tidy live
  obtain ⟨nodup, proper₀⟩ := tidy (counts.status ▸ live)
  exact ⟨counts.rules nodup, proper proper₀⟩

theorem step_keepsTidy : KeepsTidy e (step ctx) := by
  rw [step]
  refine checkTerminal_keepsTidy.bind fun yes e₁ tidy₁ => ?_
  split
  · exact .pure tidy₁
  · exact (advance_keepsTidy.mono (fun _ _ h => tidy₁.trans h) fun _ _ h => tidy₁.trans h).bind
      fun _ _ tidy₂ => .pure tidy₂

theorem checkBudget_keepsTidy {taken : Nat} : KeepsTidy e (checkBudget ctx taken) := by
  refine checkBudget_yields.mono ?_ ?_
  · rintro _ _ rfl
    exact .refl _
  · rintro _ _ ⟨rfl, -⟩
    exact .refl _

/-- A call goes on from a run that is tidy. -/
theorem KeepsTidy.since {x : EngineM α} (h : KeepsTidy e₁ x) (before : StaysTidy e e₁) :
    Yields e₁ x (fun _ e' => StaysTidy e e') fun _ e' => StaysTidy e e' :=
  h.mono (fun _ _ h => before.trans h) fun _ _ h => before.trans h

theorem completeFrom_keepsTidy {fuel taken : Nat} : KeepsTidy e (completeFrom ctx fuel taken) := by
  induction fuel generalizing e taken with
  | zero => exact .throw (.refl e)
  | succ fuel ih =>
      rw [completeFrom]
      refine checkTerminal_keepsTidy.bind fun yes e₁ tidy₁ => ?_
      split
      · exact .pure tidy₁
      · refine (checkBudget_keepsTidy.since tidy₁).bind fun _ e₂ tidy₂ => ?_
        exact (advance_keepsTidy.since tidy₂).bind fun _ e₃ tidy₃ => ih.since tidy₃

theorem equalRound_keepsTidy {taken : Nat} : KeepsTidy e (equalRound ctx eq taken) := by
  rw [equalRound]
  refine ((normalizeSides_idles eq).mono (fun _ _ h => h.1.settled.staysTidy) fun _ _ h =>
    h.1.settled.staysTidy).bind fun sides e₁ tidy₁ => ?_
  split
  · exact .pure tidy₁
  · refine (checkTerminal_keepsTidy.since tidy₁).bind fun yes e₂ tidy₂ => ?_
    split
    · exact .pure tidy₂
    · refine (checkBudget_keepsTidy.since tidy₂).bind fun _ e₃ tidy₃ => ?_
      exact (advance_keepsTidy.since tidy₃).bind fun _ e₄ tidy₄ => .pure tidy₄

theorem equalFrom_keepsTidy {fuel taken : Nat} : KeepsTidy e (equalFrom ctx eq fuel taken) := by
  induction fuel generalizing e taken with
  | zero => exact .throw (.refl e)
  | succ fuel ih =>
      rw [equalFrom_succ]
      refine equalRound_keepsTidy.bind fun out e₁ tidy₁ => ?_
      split
      · exact .pure tidy₁
      · exact ih.since tidy₁

theorem complete_keepsTidy : KeepsTidy e (complete ctx) := by
  have opened : StaysTidy e (e.setStop false) := (setStop_settled false).staysTidy
  rw [complete]
  exact .bindModify (completeFrom_keepsTidy.since opened)

theorem equal_keepsTidy : KeepsTidy e (equal ctx eq) := by
  rw [equal_eq]
  refine (openQuery_yields.mono (fun _ _ h => h.staysTidy) ?_).bind fun _ e₁ tidy₁ =>
    equalFrom_keepsTidy.since tidy₁
  rintro _ _ ⟨rfl, -⟩
  exact .refl _

theorem Call.staysTidy (c : Call) : StaysTidy e (c.run ctx e s).1 := by
  cases c with
  | step => exact holds_after step_keepsTidy
  | complete => exact holds_after complete_keepsTidy
  | equal eq => exact holds_after equal_keepsTidy
  | reduce r => exact holds_after ((reduce_yields r).mono (fun _ _ h => h.staysTidy) fun _ _ h => h.staysTidy)
  | normalForm r =>
      exact holds_after ((normalForm_yields r).mono (fun _ _ h => h.staysTidy) fun _ _ h => h.staysTidy)
  | setBudget maxSteps timeLimit => exact Settled.staysTidy ⟨rfl, rfl, rfl, rfl⟩
  | cancel => exact (setStop_settled true).staysTidy

/-- A step that was taken follows a check that the run goes on. -/
theorem exists_advance_of_step (ok : answer (step ctx) e s = .ok false) :
    ∃ e₁ s₁, checkTerminal ctx e s = ((.ok false, e₁), s₁) ∧
      advanceInner ctx e₁ s₁ = ((.ok (), (after (step ctx) e s).1), (after (step ctx) e s).2) := by
  rw [answer, step, TermM.bind_apply] at ok
  rw [after, step, TermM.bind_apply]
  rcases checked : checkTerminal ctx e s with ⟨⟨_ | ended, e₁⟩, s₁⟩
  · rw [checked] at ok
    cases ok
  · rw [checked] at ok
    cases ended with
    | true => cases ok
    | false =>
        refine ⟨e₁, s₁, rfl, ?_⟩
        dsimp only at ok ⊢
        rw [if_neg Bool.false_ne_true, TermM.bind_apply, advance, poisonOnError_apply] at ok ⊢
        rcases advanced : advanceInner ctx e₁ s₁ with ⟨⟨_ | _, e₂⟩, s₂⟩
        · rw [advanced] at ok
          cases ok
        · rfl

/-- No rule and no equation occurs twice, no equation is trivial, and none subsumes another one in either
direction. -/
structure Irredundant (e : Engine) (s : Store) : Prop where
  rules : e.rules.Nodup
  equations : e.equations.Nodup
  proper : ∀ c ∈ e.equations, c.isTrivial = false
  apart : ∀ c ∈ e.equations, ∀ d ∈ e.equations, c ≠ d → (c.subsumesEither d s).1 = false

/-- A step that makes a rule of an equation or puts one off leaves no equation that subsumes another one. -/
theorem Stepped.apart {G : Gauge} (h : Stepped G e s e') (proper : Proper e.equations) :
    ∀ c ∈ e'.equations, ∀ d ∈ e'.equations, c ≠ d → ¬ Equation.Subsumes s c d := by
  cases h with
  | oriented _ _ _ reduces => exact reduces.apart
  | dropped mem even _ _ => cases (proper.proper _ mem).symm.trans even
  | deferred _ _ _ _ reduces => exact reduces.apart

end Engine

namespace Problem

open Engine
open TermM (Yields)

variable {p : Problem} {ctx : Context} {e : Engine} {s : Store} {sig : Signature}

theorem worklist_proper (p : Problem) : Proper p.worklist := by
  refine ⟨?_, fun eq heq => (mem_worklist.1 heq).2⟩
  suffices gen : ∀ es fs : List Equation, fs.Nodup → (es.foldl addNew fs).Nodup from gen _ _ .nil
  intro es
  induction es with
  | nil => exact fun _ nodup => nodup
  | cons eq es ih => exact fun fs nodup => ih _ (addNew_nodup nodup eq)

/-- Every run is tidy until it fails. -/
theorem Reaches.tidy (h : p.Reaches sig e s) : Tidy e := by
  induction h with
  | start => exact fun _ => ⟨.nil, p.worklist_proper⟩
  | grow _ _ _ ih => exact ih
  | call c ctx _ _ _ ih => exact c.staysTidy ih

/-- After every step that was taken, rules and equations are kept once, and no equation is of no use, whatever
the order answers. -/
theorem step_irredundant (posed : p.Posed .full) (order : p.order.Preserves) (h : p.Reaches .full e s)
    (same : ctx.order = p.order) (ok : answer (step ctx) e s = .ok false) :
    Irredundant (after (step ctx) e s).1 (after (step ctx) e s).2 := by
  obtain ⟨wf, -, inv⟩ := h.kept_free posed order
  have obeys : ctx.order.Obeys .free := same ▸ order.obeys
  obtain ⟨e₁, s₁, checked, advanced⟩ := exists_advance_of_step ok
  obtain ⟨wf₁, -, check⟩ := checkTerminal_spec obeys wf posed.fits inv
  rw [checked] at wf₁ check
  obtain ⟨inv₁, -, on⟩ := check
  have tidies : KeepsTidy e (checkTerminal ctx) := checkTerminal_keepsTidy
  have stays := tidies s
  rw [checked] at stays
  have live : e₁.status ≠ .failed := by
    rw [(on rfl).1]
    exact nofun
  obtain ⟨nodup, proper⟩ := stays h.tidy live
  obtain ⟨wf', -, steps⟩ := advanceInner_spec obeys wf₁ inv₁.fine
  rw [advanced] at wf' steps
  obtain ⟨adv, stepped⟩ := steps
  have counts : Yields e₁ (advanceInner ctx) _ _ := advanceInner_yields
  have counted := counts s₁
  rw [advanced] at counted
  have proper' := counted.2 proper
  refine ⟨counted.1.rules nodup, proper'.nodup, proper'.proper, fun c hc d hd other => ?_⟩
  obtain ⟨l, r, means, -⟩ := adv.fine.equations c hc
  obtain ⟨l', r', means', -⟩ := adv.fine.equations d hd
  have spec := (Equation.subsumesEither_iff wf' means means').2.2.2
  exact eq_false_of_ne_true fun yes => stepped.apart proper c hc d hd other (spec.1 yes)

/-- The second step leaves two rules and four equations. -/
theorem step_irredundant_assorted :
    answer (step (lettersContext assorted.order)) (assortedAfter 1).1 (assortedAfter 1).2 = .ok false ∧
    (assortedAfter 2).1.rules.length = 2 ∧ (assortedAfter 2).1.equations.length = 4 ∧
    Irredundant (assortedAfter 2).1 (assortedAfter 2).2 := by
  have preserves : assorted.order.Preserves := Order.ofKind_preserves _ .lpo
  have same : (lettersContext assorted.order).order = assorted.order := rfl
  have reached : assorted.Reaches .full (assortedAfter 1).1 (assortedAfter 1).2 := reaches_stepped same 1
  have outcome : answer (step (lettersContext assorted.order)) (assortedAfter 1).1 (assortedAfter 1).2 = .ok false ∧
      (assortedAfter 2).1.rules.length = 2 ∧ (assortedAfter 2).1.equations.length = 4 := by
    decide +kernel
  obtain ⟨ok, rules, equations⟩ := outcome
  refine ⟨ok, rules, equations, ?_⟩
  rw [assortedAfter, stepped_succ]
  exact step_irredundant assorted_posed.full preserves reached same ok

end Problem
end OrderedCompletion
