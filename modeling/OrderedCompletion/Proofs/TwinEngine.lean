import OrderedCompletion.Proofs.Outcomes
import OrderedCompletion.Proofs.TwinReduction
import OrderedCompletion.Proofs.TwinSuperposition

/-! Runs side by side, and what does not move them. -/

namespace OrderedCompletion

open Term Parallel TermM

namespace Engine

variable {P P' : Parallel} {e e' e₁ e₁' e₂ : Engine} {α α' β β' : Type}

/-- Only the workspace and the passes may differ. -/
structure Still (e e' : Engine) : Prop extends Unmoved e e' where
  seen : e'.seen = e.seen

theorem Still.refl (e : Engine) : Still e e := ⟨.refl e, rfl⟩

theorem Still.trans (h : Still e e₁) (h' : Still e₁ e₂) : Still e e₂ :=
  ⟨h.toUnmoved.trans h'.toUnmoved, h'.seen.trans h.seen⟩

/-- Runs that are at the same place, with limits of their own on the steps of a call. -/
structure Twins (P : Parallel) (e e' : Engine) : Prop where
  config : e'.config = { e.config with maxSteps := e'.config.maxSteps }
  equations : List.Forall₂ P.TwinEq e.equations e'.equations
  rules : List.Forall₂ P.TwinRule e.rules e'.rules
  seen : P.TwinSeen e.seen e'.seen
  status : e'.status = e.status
  steps : e'.steps = e.steps

theorem Twins.mono (h : Twins P e e') (ext : P.Extends P') : Twins P' e e' :=
  { h with
    equations := h.equations.imp fun _ _ h => h.mono ext
    rules := h.rules.imp fun _ _ h => h.mono ext
    seen := h.seen.mono ext }

theorem Twins.unmoved (h : Twins P e e') (still : Unmoved e e₁) (still' : Unmoved e' e₁')
    (seen : P.TwinSeen e₁.seen e₁'.seen) : Twins P e₁ e₁' where
  config := by rw [still.config, still'.config, ← h.config]
  equations := by rw [still.equations, still'.equations]; exact h.equations
  rules := by rw [still.rules, still'.rules]; exact h.rules
  seen := seen
  status := still'.status.trans (h.status.trans still.status.symm)
  steps := still'.steps.trans (h.steps.trans still.steps.symm)

theorem Twins.still (h : Twins P e e') (still : Still e e₁) (still' : Still e' e₁') : Twins P e₁ e₁' :=
  h.unmoved still.toUnmoved still'.toUnmoved (by rw [still.seen, still'.seen]; exact h.seen)

theorem Twins.unfailing (h : Twins P e e') : e'.config.unfailing = e.config.unfailing := by rw [h.config]

theorem Twins.activeEquations (h : Twins P e e') : List.Forall₂ P.TwinEq e.activeEquations e'.activeEquations := by
  rw [Engine.activeEquations, Engine.activeEquations, h.unfailing]
  cases e.config.unfailing with
  | true => exact h.equations
  | false => exact .nil

theorem Twins.ruleEquations (h : Twins P e e') : List.Forall₂ P.TwinEq e.rules e'.rules :=
  h.rules.imp fun _ _ h => h.twinEq

/-- The actions do the same and leave the runs where they are. -/
abbrev Glances (P : Parallel) (e e' : Engine) (x : EngineM α) (y : EngineM α') (Q : Parallel → α → α' → Prop) : Prop :=
  Mirrors P e e' x y fun P' a a' e₁ e₁' => (Still e e₁ ∧ Still e' e₁') ∧ Q P' a a'

section
variable {x : EngineM α} {y : EngineM α'} {f : α → EngineM β} {g : α' → EngineM β'}
variable {Q : Parallel → α → α' → Prop} {R : Parallel → β → β' → Prop}

theorem Glances.pure {a : α} {a' : α'} (h : Q P a a') : Glances P e e' (Pure.pure a) (Pure.pure a') Q :=
  Mirrors.pure ⟨⟨.refl e, .refl e'⟩, h⟩

theorem Glances.bind (hx : Glances P e e' x y Q) (hf : ∀ P' a a' e₁ e₁', P.Extends P' → Still e e₁ → Still e' e₁' →
    Q P' a a' → Glances P' e₁ e₁' (f a) (g a') R) : Glances P e e' (x >>= f) (y >>= g) R := by
  refine Mirrors.bind hx ?_
  rintro P₁ a a' e₁ e₁' ext ⟨⟨still, still'⟩, hQ⟩
  refine (hf P₁ a a' e₁ e₁' ext still still' hQ).mono ?_
  rintro P₂ b b' e₂ e₂' ext₂ ⟨⟨still₂, still₂'⟩, hR⟩
  exact ⟨⟨still.trans still₂, still'.trans still₂'⟩, hR⟩

end

/-- The actions lead from runs at the same place to runs at the same place. -/
abbrev Moves (P : Parallel) (e e' : Engine) (x : EngineM α) (y : EngineM α') (Q : Parallel → α → α' → Prop) : Prop :=
  Mirrors P e e' x y fun P' a a' e₁ e₁' => Twins P' e₁ e₁' ∧ Q P' a a'

theorem Glances.moves {x : EngineM α} {y : EngineM α'} {Q : Parallel → α → α' → Prop} (hx : Glances P e e' x y Q)
    (h : Twins P e e') : Moves P e e' x y Q :=
  Mirrors.mono hx fun _ _ _ _ _ ext hQ => ⟨(h.mono ext).still hQ.1.1 hQ.1.2, hQ.2⟩

theorem onWorkspace_glances {x : TermM Workspace Halt α} {y : TermM Workspace Halt α'} {Q : Parallel → α → α' → Prop}
    (h : Mirrors P e.workspace e'.workspace x y fun P' a a' _ _ => Q P' a a') :
    Glances P e e' (onWorkspace x) (onWorkspace y) Q :=
  .within h (fun _ => rfl) (fun _ _ => rfl)
    fun _ _ _ _ _ _ hQ => ⟨⟨⟨⟨rfl, rfl, rfl, rfl, rfl, rfl⟩, rfl⟩, ⟨⟨rfl, rfl, rfl, rfl, rfl, rfl⟩, rfl⟩⟩, hQ⟩

variable {ctx : Context} {r r' q q' : Ref} {a b : Term} {eq eq' : Equation}

theorem reduced_error (err : ReduceError) (e : Engine) (s : Store) :
    ∃ halt, (reduced ctx (.error err) : EngineM α) e s = ((.error halt, e), s) := by
  cases err with
  | diverged start last passes => exact ⟨_, rfl⟩
  | exhausted => exact ⟨_, rfl⟩
  | term err => exact ⟨_, rfl⟩

theorem pairsOf_error (err : OverlapError) (e : Engine) (s : Store) :
    ∃ halt, pairsOf ctx (.error err) e s = ((.error halt, e), s) := ⟨_, rfl⟩

variable {gt : Term → Term → Prop}

/-- Normalizations by the same rules and equations. -/
theorem reduceWith_glances {rules rules' equations equations' : List Equation} {action action' : Reducer → ReduceM α}
    {Q : Parallel → α → α → Prop} (h : Twins P e e') (hrules : List.Forall₂ P.TwinRule rules rules')
    (hequations : List.Forall₂ P.TwinEq equations equations')
    (acts : ∀ rd rd', P.TwinReducer rd rd' → rd.order = ctx.order →
      Mirrors P { workspace := e.workspace } { workspace := e'.workspace } (action rd) (action' rd')
        fun P' a a' _ _ => Q P' a a') :
    Glances P e e' (reduceWith ctx rules equations action) (reduceWith ctx rules' equations' action') Q := by
  let rd : Reducer := ⟨ctx.order, rules, equations, e.config.maxReductionPasses, e.config.maxTermGrowth⟩
  let rd' : Reducer := ⟨ctx.order, rules', equations', e'.config.maxReductionPasses, e'.config.maxTermGrowth⟩
  have twins : P.TwinReducer rd rd' := by
    refine ⟨rfl, ?_, ?_, hrules, hequations⟩
    · change e'.config.maxReductionPasses = _
      rw [h.config]
    · change e'.config.maxTermGrowth = _
      rw [h.config]
  let part (e : Engine) : ReduceState := { workspace := e.workspace }
  let put (st : ReduceState) (e : Engine) : Engine :=
    { e with workspace := st.workspace, metrics := e.metrics.recordReductionPasses st.passes }
  exact Mirrors.through part put _ _ (acts rd rd' twins rfl)
    (fun _ => reduceWith_apply rfl) (fun _ => reduceWith_apply rfl) (fun _ => rfl) (fun _ => rfl) reduced_error
    reduced_error (fun _ => rfl) (fun _ _ => rfl)
    fun _ _ _ _ _ _ hQ => ⟨⟨⟨⟨rfl, rfl, rfl, rfl, rfl, rfl⟩, rfl⟩, ⟨⟨rfl, rfl, rfl, rfl, rfl, rfl⟩, rfl⟩⟩, hQ⟩

section
variable (judges : ctx.order.Judges WordSized .full gt) (quiet : ∀ s r q, ctx.order.alarm s r q = false)
include judges quiet

theorem ask_glances (h : P.Reads a r q) (h' : P.Reads b r' q') :
    Glances P e e' (ask ctx r r') (ask ctx q q') fun _ yes yes' => yes' = yes ∧ (yes = true ↔ gt a b) :=
  onWorkspace_glances (Workspace.ask_mirrors judges quiet h h')

theorem orientable_glances (h : P.TwinEq eq eq') :
    Glances P e e' (orientable ctx eq) (orientable ctx eq') fun _ yes yes' => yes' = yes := by
  obtain ⟨c, h⟩ := h
  exact onWorkspace_glances (Workspace.askEither_mirrors judges quiet h.lhs h.rhs)

theorem normalizeOne_glances {rules rules' equations equations' : List Equation} (h : Twins P e e')
    (hrules : List.Forall₂ P.TwinRule rules rules') (hequations : List.Forall₂ P.TwinEq equations equations')
    (reads : P.Reads a r q) :
    Glances P e e' (normalizeOne ctx rules equations r) (normalizeOne ctx rules' equations' q) fun P' => P'.Kept a := by
  refine reduceWith_glances h hrules hequations fun rd rd' twins same => ?_
  rw [← same] at judges quiet
  exact (Reducer.normalize_mirrors judges quiet (twinMemo_empty P) twins reads).mono fun _ _ _ _ _ _ h => h.2

theorem normalizeWith_glances {rules rules' equations equations' es ds : List Equation} (h : Twins P e e')
    (hrules : List.Forall₂ P.TwinRule rules rules') (hequations : List.Forall₂ P.TwinEq equations equations')
    (hes : List.Forall₂ P.TwinEq es ds) :
    Glances P e e' (normalizeWith ctx rules equations (Reducer.sidesOf es))
      (normalizeWith ctx rules' equations' (Reducer.sidesOf ds)) fun P' us us' => ∃ es' ds',
        us = Reducer.sidesOf es' ∧ us' = Reducer.sidesOf ds' ∧ List.Forall₂ P'.TwinEq es' ds' := by
  refine reduceWith_glances h hrules hequations fun rd rd' twins same => ?_
  rw [← same] at judges quiet
  exact (Reducer.normalizeAll_mirrors judges quiet (twinMemo_empty P) twins hes).mono fun _ _ _ _ _ _ h => h.2

theorem normalizeSides_glances (h : Twins P e e') (heq : P.TwinEq eq eq') :
    Glances P e e' (normalizeSides ctx eq) (normalizeSides ctx eq') fun P' => P'.TwinEq := by
  rw [normalizeSides, normalizeSides]
  refine .bindGet (reduceWith_glances h h.rules h.activeEquations fun rd rd' twins same => ?_)
  rw [← same] at judges quiet
  exact (Reducer.normalizeSides_mirrors judges quiet (twinMemo_empty P) twins heq).mono fun _ _ _ _ _ _ h => h.2

theorem superposition_mirrors {withEquations : Bool} {sp sp' : Superposer} (h : Twins P e e') (heq : P.TwinEq eq eq')
    (seen : P.TwinSeen sp.seen sp'.seen) :
    Mirrors P sp sp' (superposition ctx e eq withEquations) (superposition ctx e' eq' withEquations)
      Superposer.Agree := by
  cases withEquations with
  | true =>
      exact Superposer.superposeAll_mirrors judges quiet seen (allDonors_twins h.equations h.ruleEquations heq)
  | false => exact Superposer.superposeAll_mirrors judges quiet seen (ruleDonors_twins h.ruleEquations heq)

theorem superpose_moves {withEquations : Bool} (h : Twins P e e') (heq : P.TwinEq eq eq') :
    Moves P e e' (superpose ctx eq withEquations) (superpose ctx eq' withEquations) fun P' =>
      List.Forall₂ P'.TwinEq := by
  let part (e : Engine) : Superposer := { workspace := e.workspace, seen := e.seen }
  let put (sp : Superposer) (e : Engine) : Engine := { e with workspace := sp.workspace, seen := sp.seen }
  refine Mirrors.through part put _ _ (superposition_mirrors judges quiet h heq h.seen)
    (fun _ => rfl) (fun _ => rfl) (fun _ => rfl) (fun _ => rfl) pairsOf_error pairsOf_error (fun _ => rfl)
    (fun _ _ => rfl) fun _ _ _ _ _ ext agree => ⟨?_, agree.1⟩
  exact (h.mono ext).unmoved ⟨rfl, rfl, rfl, rfl, rfl, rfl⟩ ⟨rfl, rfl, rfl, rfl, rfl, rfl⟩ agree.2

theorem superposeAfresh_glances {withEquations : Bool} (h : Twins P e e') (heq : P.TwinEq eq eq') :
    Glances P e e' (superposeAfresh ctx eq withEquations) (superposeAfresh ctx eq' withEquations) fun P' =>
      List.Forall₂ P'.TwinEq := by
  let part (e : Engine) : Superposer := { workspace := e.workspace }
  let put (sp : Superposer) (e : Engine) : Engine := { e with workspace := sp.workspace }
  exact Mirrors.through part put _ _ (superposition_mirrors judges quiet h heq (twinSeen_empty P))
    (fun _ => rfl) (fun _ => rfl) (fun _ => rfl) (fun _ => rfl) pairsOf_error pairsOf_error (fun _ => rfl)
    (fun _ _ => rfl)
    fun _ _ _ _ _ _ agree => ⟨⟨⟨⟨rfl, rfl, rfl, rfl, rfl, rfl⟩, rfl⟩, ⟨⟨rfl, rfl, rfl, rfl, rfl, rfl⟩, rfl⟩⟩, agree.1⟩

end

end Engine
end OrderedCompletion
