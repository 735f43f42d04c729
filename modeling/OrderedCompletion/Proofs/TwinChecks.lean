import OrderedCompletion.Proofs.TwinSteps

/-! The check whether a run is at its end, side by side. -/

namespace OrderedCompletion

open Term Parallel TermM

namespace Engine

variable {P : Parallel} {e e' : Engine} {ctx : Context} {gt : Term → Term → Prop} {es ds found found' : List Equation}
variable (judges : ctx.order.Judges WordSized .full gt) (quiet : ∀ s r q, ctx.order.alarm s r q = false)
include judges quiet

theorem allUnorientable_glances (h : List.Forall₂ P.TwinEq es ds) :
    Glances P e e' (allUnorientable ctx es) (allUnorientable ctx ds) fun _ yes yes' => yes' = yes := by
  induction es generalizing P e e' ds with
  | nil =>
      cases h
      exact .pure rfl
  | cons eq es ih =>
      cases h with
      | @cons _ eq' _ ds here rest =>
      rw [allUnorientable, allUnorientable]
      refine (orientable_glances judges quiet here).bind ?_
      rintro P₁ _ yes e₁ e₁' ext still still' rfl
      cases yes with
      | true => exact .pure rfl
      | false => exact ih (rest.imp fun _ _ h => h.mono ext)

theorem normalizePairs_glances (h : Twins P e e') (hfound : List.Forall₂ P.TwinEq found found')
    (hpairs : List.Forall₂ P.TwinEq es ds) :
    Glances P e e' (normalizePairs ctx found es) (normalizePairs ctx found' ds) fun P' => List.Forall₂ P'.TwinEq := by
  induction es generalizing P e e' found found' ds with
  | nil =>
      cases hpairs
      exact .pure hfound
  | cons pair es ih =>
      cases hpairs with
      | @cons _ pair' _ ds here rest =>
      rw [normalizePairs, normalizePairs]
      refine (normalizeSides_glances judges quiet h here).bind ?_
      intro P₁ eq eq' e₁ e₁' ext still still' twins
      have found₁ := hfound.imp fun _ _ h => h.mono ext
      refine ih ((h.mono ext).still still still') ?_ (rest.imp fun _ _ h => h.mono ext)
      rw [twins.isTrivial_eq]
      cases eq.isTrivial with
      | true => exact found₁
      | false => exact addNew_rel (TwinEq.biUnique P₁) twins found₁

theorem pairsMeet_glances (h : Twins P e e') (hpairs : List.Forall₂ P.TwinEq es ds) :
    Glances P e e' (pairsMeet ctx es) (pairsMeet ctx ds) fun _ yes yes' => yes' = yes := by
  induction es generalizing P e e' ds with
  | nil =>
      cases hpairs
      exact .pure rfl
  | cons pair es ih =>
      cases hpairs with
      | @cons _ pair' _ ds here rest =>
      rw [pairsMeet, pairsMeet]
      refine (normalizeSides_glances judges quiet h here).bind ?_
      intro P₁ eq eq' e₁ e₁' ext still still' twins
      rw [twins.isTrivial_eq]
      cases eq.isTrivial with
      | true => exact ih ((h.mono ext).still still still') (rest.imp fun _ _ h => h.mono ext)
      | false => exact .pure rfl

theorem sourcesJoin_glances {sources sources' : List (Equation × Bool)} (h : Twins P e e')
    (hsources : List.Forall₂ (TwinSource P) sources sources') :
    Glances P e e' (sourcesJoin ctx sources) (sourcesJoin ctx sources') fun _ yes yes' => yes' = yes := by
  induction sources generalizing P e e' sources' with
  | nil =>
      cases hsources
      exact .pure rfl
  | cons source sources ih =>
      cases hsources with
      | @cons _ source' _ sources' here rest =>
      obtain ⟨eq, withEquations⟩ := source
      obtain ⟨eq', _⟩ := source'
      obtain ⟨here, rfl⟩ := here
      rw [sourcesJoin, sourcesJoin]
      refine (superposeAfresh_glances judges quiet h here).bind ?_
      intro P₁ pairs pairs' e₁ e₁' ext₁ still₁ still₁' hpairs
      have h₁ := (h.mono ext₁).still still₁ still₁'
      refine (normalizePairs_glances judges quiet h₁ .nil hpairs).bind ?_
      intro P₂ reduced reduced' e₂ e₂' ext₂ still₂ still₂' hreduced
      have h₂ := (h₁.mono ext₂).still still₂ still₂'
      refine .bindGet (.bindLift (filterSubsumed_does h₂.equations hreduced) ?_)
      intro P₃ left left' ext₃ hleft
      have h₃ := h₂.mono ext₃
      refine (pairsMeet_glances judges quiet h₃ hleft).bind ?_
      rintro P₄ _ yes e₄ e₄' ext₄ still₄ still₄' rfl
      cases yes with
      | true =>
          exact ih ((h₃.mono ext₄).still still₄ still₄')
            (rest.imp fun _ _ h => (((h.mono ext₁).mono ext₂).mono ext₃).mono ext₄)
      | false => exact .pure rfl

theorem allPairsJoin_glances (h : Twins P e e') :
    Glances P e e' (allPairsJoin ctx) (allPairsJoin ctx) fun _ yes yes' => yes' = yes := by
  rw [allPairsJoin]
  refine .bindGet (sourcesJoin_glances judges quiet h (List.rel_append ?_ ?_))
  · exact List.rel_map (fun _ _ here => ⟨here, rfl⟩) h.equations
  · exact List.rel_map (fun _ _ here => ⟨here, rfl⟩) h.ruleEquations

/-- On both sides the check has the same outcome. A run that goes on is not moved. -/
theorem checkTerminal_moves (h : Twins P e e') :
    Mirrors P e e' (checkTerminal ctx) (checkTerminal ctx) fun P' yes yes' e₁ e₁' =>
      Twins P' e₁ e₁' ∧ yes' = yes ∧ (yes = false → Still e' e₁') := by
  rw [checkTerminal]
  refine .bindGet ?_
  rw [h.status]
  cases status : e.status with
  | complete => exact .pure ⟨h, rfl, fun no => by cases no⟩
  | groundComplete => exact .pure ⟨h, rfl, fun no => by cases no⟩
  | failed => exact fail_mirrors
  | running =>
      refine .bindGet ?_
      have empty : e'.equations.isEmpty = e.equations.isEmpty := by
        have equations := h.equations
        revert equations
        generalize e.equations = es
        generalize e'.equations = ds
        rintro (_ | _)
        · rfl
        · rfl
      dsimp only
      rw [empty]
      cases e.equations.isEmpty with
      | true => exact .bindModify rfl rfl (.pure ⟨{ h with status := rfl }, rfl, fun no => by cases no⟩)
      | false =>
          refine Mirrors.bind (allUnorientable_glances judges quiet h.equations) ?_
          rintro P₁ _ yes e₁ e₁' ext₁ ⟨⟨still₁, still₁'⟩, rfl⟩
          have h₁ := (h.mono ext₁).still still₁ still₁'
          cases yes with
          | false => exact .pure ⟨h₁, rfl, fun _ => still₁'⟩
          | true =>
              refine (poisonOnError_mirrors (allPairsJoin_glances judges quiet h₁)).bind ?_
              rintro P₂ _ yes e₂ e₂' ext₂ ⟨⟨still₂, still₂'⟩, rfl⟩
              have h₂ := (h₁.mono ext₂).still still₂ still₂'
              cases yes with
              | false => exact .pure ⟨h₂, rfl, fun _ => still₁'.trans still₂'⟩
              | true => exact .bindModify rfl rfl (.pure ⟨{ h₂ with status := rfl }, rfl, fun no => by cases no⟩)

end Engine
end OrderedCompletion
