import OrderedCompletion.Proofs.GroundSteps

/-! Completion of ground axioms comes to an end. -/

namespace OrderedCompletion

namespace Engine

variable {sig : Signature} {gt : Term → Term → Prop} {laws : ReductionOrder sig gt} {I J : Term → Prop}
variable {ctx : Context} {e e' : Engine} {s s' : Store}

/-- A run on given terms that goes on without bounds. -/
structure Underway (laws : ReductionOrder sig gt) (I J : Term → Prop) (e : Engine) (s : Store) : Prop where
  wellFormed : s.WellFormed
  fine : Fine laws.groundGauge s e
  within : Within I s e
  tame : Tame J e s
  proper : ∀ d ∈ e.equations, d.isTrivial = false
  running : e.status = .running
  steps : e.config.maxSteps = none
  time : e.config.timeLimit = none

theorem Underway.comparable (h : Underway laws I J e s)
    (total : ∀ {a b : Term}, I a → I b → a ≠ b → gt a b ∨ gt b a) : Comparable laws.groundGauge s e := by
  intro d hd l r means
  obtain ⟨l', r', means', hl, hr⟩ := h.within.equations d hd
  obtain rfl := means.1.unique means'.1
  obtain rfl := means.2.unique means'.2
  refine total hl hr ?_
  rintro rfl
  exact of_decide_eq_false (h.proper d hd) (means.1.inj means.2 h.wellFormed)

theorem Stepped.proper {G : Gauge} (h : Stepped G e s' e') (proper : ∀ d ∈ e.equations, d.isTrivial = false) :
    ∀ d ∈ e'.equations, d.isTrivial = false := by
  cases h with
  | oriented _ _ _ reduces => exact reduces.proper
  | dropped _ _ fewer _ => exact fun d hd => proper d (mem_remove.1 (fewer ▸ hd)).1
  | deferred _ _ _ _ reduces => exact reduces.proper

theorem Stepped.within (h : Stepped laws.groundGauge e s e') (realm : Realm laws.groundGauge I J)
    (fine : Fine laws.groundGauge s e) (comparable : Comparable laws.groundGauge s e)
    (within : Within I s e) : Within I s e' := by
  cases h with
  | oriented mem directs adds reduces =>
      exact reduces.within realm (adds.within realm mem directs fine within)
  | dropped _ _ fewer same =>
      refine ⟨?_, same ▸ within.rules⟩
      rw [fewer]
      exact within.equations.of_subset fun d hd => (mem_remove.1 hd).1
  | @deferred eq _ mem _ apart _ _ =>
      obtain ⟨l, r, means, -⟩ := fine.equations eq mem
      have ⟨no, no'⟩ := apart trivial l r means
      exact ((comparable eq mem l r means).elim no no').elim

theorem Underway.later (h : Underway laws I J e s) (wf : s'.WellFormed) (le : s ≤ s')
    (confined : s'.Confined J) : Underway laws I J e s' where
  wellFormed := wf
  fine := h.fine.mono h.wellFormed wf le
  within := h.within.mono h.wellFormed wf le
  tame := ⟨confined, h.tame.2⟩
  proper := h.proper
  running := h.running
  steps := h.steps
  time := h.time

/-- After a step a run goes on as before. -/
theorem Underway.next (h : Underway laws I J e s') (realm : Realm laws.groundGauge I J)
    (comparable : Comparable laws.groundGauge s' e) (adv : Advances laws.groundGauge s e s' e')
    (stepped : Stepped laws.groundGauge e s' e') (tame : Tame J e' s') : Underway laws I J e' s' where
  wellFormed := h.wellFormed
  fine := adv.fine
  within := stepped.within realm h.fine comparable h.within
  tame := tame
  proper := stepped.proper h.proper
  running := adv.status.trans h.running
  steps := adv.config ▸ h.steps
  time := adv.config ▸ h.time

theorem advance_steps {G : Gauge} (obeys : ctx.order.Obeys G) (wf : s.WellFormed) (fine : Fine G s e) :
    TermM.Ensures e s (advance ctx) (fun _ e' s' => Advances G s e s' e' ∧ Stepped G e s' e')
      fun _ _ => True :=
  poisonOnError_spec (advanceInner_spec obeys wf fine) fun _ _ _ _ _ => trivial

/-- A run whose equations are comparable is not at its end. -/
theorem checkTerminal_open (obeys : ctx.order.Obeys laws.groundGauge) (quiet : ctx.order.Quiet I)
    (h : Underway laws I J e s) (some : e.equations ≠ []) (comparable : Comparable laws.groundGauge s e) :
    TermM.Ensures e s (checkTerminal ctx)
      (fun yes e' s' => yes = false ∧ e' = e ∧ Store.SameTerms s s') fun _ _ => False := by
  rw [checkTerminal]
  refine .bindGet ?_
  simp only [h.running]
  refine .bindGet ?_
  rw [if_neg (by simpa using some)]
  refine TermM.Ensures.bind (((allUnorientable_quiet quiet h.wellFormed h.within.equations).and
    (allUnorientable_spec obeys h.wellFormed h.fine.equations)).mono
    (fun _ _ _ _ _ h => h) fun _ _ _ _ no => no.1) ?_
  rintro yes _ s₁ wf₁ - ⟨⟨rfl, same⟩, -, none⟩
  cases yes with
  | false => exact .pure wf₁ ⟨rfl, rfl, same⟩
  | true =>
      obtain ⟨d, hd⟩ := List.exists_mem_of_ne_nil _ some
      obtain ⟨l, r, means, -⟩ := h.fine.equations d hd
      obtain ⟨no, no'⟩ := none rfl trivial d hd l r means
      exact ((comparable d hd l r means).elim no no').elim

theorem checkBudget_unbounded {taken : Nat} (stop : e.workspace.stop = false)
    (steps : e.config.maxSteps = none) (time : e.config.timeLimit = none) :
    checkBudget ctx taken e s = ((.ok (), e), s) := by
  have unspent : budgetSpent ctx e taken = none := by simp [budgetSpent, budgetSpent.timeSpent, stop, steps, time]
  have asks : (get : EngineM Engine) e s = ((.ok e, e), s) := rfl
  rw [checkBudget, TermM.bind_apply, asks]
  dsimp only
  rw [unspent]
  rfl

theorem completeFrom_of_empty {n taken : Nat} (running : e.status = .running) (none : e.equations = []) :
    completeFrom ctx (n + 1) taken e s = ((.ok (), { e with status := .complete }), s) := by
  obtain ⟨config, _, rules, workspace, seen, _, metrics, steps⟩ := e
  cases running
  cases none
  rfl

/-- A run whose equations are comparable takes a step. -/
theorem exists_completeFrom_eq (obeys : ctx.order.Obeys laws.groundGauge) (quiet : ctx.order.Quiet I)
    (h : Underway laws I J e s) (some : e.equations ≠ []) (comparable : Comparable laws.groundGauge s e) :
    ∃ s₁, s₁.WellFormed ∧ Store.SameTerms s s₁ ∧ ∀ fuel n taken,
      completeFrom (ctx.withFuel fuel) (n + 1) taken e s =
        (advance (ctx.withFuel fuel) >>= fun _ => completeFrom (ctx.withFuel fuel) n (taken + 1)) e s₁ := by
  have opened := checkTerminal_open obeys quiet h some comparable
  obtain ⟨_, _, s₁, outcome, wf₁, -, rfl, rfl, same⟩ := opened.exists_eq
  refine ⟨s₁, wf₁, same, fun fuel n taken => ?_⟩
  rw [completeFrom, checkTerminal_bounded, TermM.bind_apply, outcome]
  dsimp only
  rw [if_neg Bool.false_ne_true, TermM.bind_apply, checkBudget_unbounded h.tame.2 h.steps h.time]

/-- What a run on given terms comes to: it is complete, unless a normalization took too long. -/
structure Concludes (I J : Term → Prop) (out : (Except Halt Unit × Engine) × Store) : Prop where
  wellFormed : out.2.WellFormed
  tame : Tame J out.1.2 out.2
  diverges : ∀ halt, out.1.1 = .error halt → Diverges halt
  complete : out.1.1 = .ok () → out.1.2.status = .complete
  within : out.1.1 = .ok () → Within I out.2 out.1.2

/-- With enough fuel a run on given terms, any two of which are comparable, is completed unless a
normalization takes too long. How much more fuel there is makes no difference. -/
theorem completeFrom_ends (realm : Realm laws.groundGauge I J) (obeys : ctx.order.Obeys laws.groundGauge)
    (quiet : ctx.order.Quiet I) (total : ∀ {a b : Term}, I a → I b → a ≠ b → gt a b ∨ gt b a)
    (h : Underway laws I J e s) :
    ∃ N out, Concludes I J out ∧
      ∀ fuel ≥ N, ∀ n ≥ N, ∀ taken, completeFrom (ctx.withFuel fuel) n taken e s = out := by
  induction s, e using laws.burden_induction with
  | lighter s e ih =>
      by_cases none : e.equations = []
      · have concludes : Concludes I J ((.ok (), { e with status := .complete }), s) :=
          ⟨h.wellFormed, h.tame, nofun, fun _ => rfl, fun _ => ⟨h.within.equations, h.within.rules⟩⟩
        refine ⟨1, _, concludes, ?_⟩
        intro fuel _ n more taken
        obtain ⟨n, rfl⟩ := Nat.exists_eq_add_of_le' more
        exact completeFrom_of_empty h.running none
      · have comparable := h.comparable total
        obtain ⟨s₁, wf₁, same₁, takes⟩ := exists_completeFrom_eq obeys quiet h none comparable
        have h₁ := h.later wf₁ same₁.le (same₁.confined h.tame.1)
        obtain ⟨N, steady⟩ := advance_ends realm obeys quiet wf₁ h₁.fine h₁.within none
          (h₁.comparable total) h₁.tame
        -- a step that comes to an end comes to the same end with more fuel
        have fed : ∀ fuel ≥ N, advance (ctx.withFuel fuel) e s₁ = advance (ctx.withFuel N) e s₁ := by
          refine fun fuel more => advance_extends more e s₁ fun spent => ?_
          obtain ⟨start, last, shot, diverged⟩ := steady.2 _ spent
          cases diverged
        have steps : (ctx.withFuel N).order.Obeys laws.groundGauge := obeys
        obtain ⟨wf₂, le₂, spec⟩ := advance_steps steps wf₁ h₁.fine
        cases outcome : (advance (ctx.withFuel N) e s₁).1.1 with
        | error halt =>
            refine ⟨N + 1, advance (ctx.withFuel N) e s₁, ⟨wf₂, steady.1, steady.2, ?_, ?_⟩, ?_⟩
            · rw [outcome]
              exact nofun
            · rw [outcome]
              exact nofun
            · intro fuel more n more' taken
              obtain ⟨n, rfl⟩ := Nat.exists_eq_add_of_le' (Nat.le_of_add_left_le more')
              rw [takes, TermM.bind_apply, fed fuel (Nat.le_of_succ_le more), outcome]
              exact Prod.ext (Prod.ext outcome.symm rfl) rfl
        | ok _ =>
            rw [outcome] at spec
            obtain ⟨adv, stepped⟩ := spec
            have h₂ := h₁.later wf₂ le₂ steady.1.1
            have comparable₂ := h₂.comparable total
            have less := stepped.burden_lt h₂.fine (h₂.within.ground realm) comparable₂
            rw [laws.burden_of_le h.fine h.wellFormed wf₂ (same₁.le.trans le₂)] at less
            obtain ⟨M, out, concludes, runs⟩ := ih _ _ less (h₂.next realm comparable₂ adv stepped steady.1)
            refine ⟨max N (M + 1), out, concludes, fun fuel more n more' taken => ?_⟩
            obtain ⟨n, rfl⟩ := Nat.exists_eq_add_of_le' (Nat.le_of_add_left_le (le_of_max_le_right more'))
            rw [takes, TermM.bind_apply, fed fuel (le_of_max_le_left more), outcome]
            exact runs fuel (by omega) n (by omega) (taken + 1)

end Engine
end OrderedCompletion
