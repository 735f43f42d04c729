import OrderedCompletion.Proofs.Absence

/-! What a run does without a variable: one that occurs nowhere and cannot be drawn goes on to occur nowhere,
also if a call fails. -/

namespace OrderedCompletion.Engine

variable {v : Var} {ctx : Context} {e e' : Engine} {s s' : Store} {eq ab : Equation} {α β : Type}

/-- The variable occurs in no equation and in no rule, and cannot be drawn. -/
structure Omits (v : Var) (s : Store) (e : Engine) : Prop where
  equations : s.OmitsAll v e.equations
  rules : s.OmitsAll v e.rules
  away : ¬ e.workspace.supply.Offers v

theorem Beside.omits (beside : Beside e e') (h : e.Omits v s) (wf : s.WellFormed) (wf' : s'.WellFormed)
    (le : s ≤ s') : e'.Omits v s' where
  equations := beside.equations ▸ h.equations.mono wf wf' le
  rules := beside.rules ▸ h.rules.mono wf wf' le
  away := fun offered => h.away (beside.later.offers v offered)

theorem Omits.fine (h : e.Omits v s) (wf : s.WellFormed) : Fine .free s e where
  equations := h.equations.hasAll wf
  rules := h.rules.hasAll wf
  descends := by
    intro l r hl
    obtain ⟨left, right⟩ := Store.HasAll.fits (G := .free) (h.rules.hasAll wf) l r hl
    exact ⟨left, right, trivial⟩
  distinct := fun no => no.elim

/-- The action leaves a run without the variable, also if it fails. -/
abbrev Omitting (v : Var) (e : Engine) (s : Store) (x : EngineM α) (Q : α → Store → Prop) : Prop :=
  TermM.Ensures e s x (fun a e' s' => e'.Omits v s' ∧ Q a s') fun e' s' => e'.Omits v s'

theorem Leaves.omitting {x : EngineM α} {Q : α → Store → Prop} (hx : Leaves e s x Q) (h : e.Omits v s)
    (wf : s.WellFormed) : Omitting v e s x Q :=
  TermM.Ensures.mono hx (fun _ _ _ wf' le' out => ⟨out.1.omits h wf wf' le', out.2⟩)
    fun _ _ wf' le' aside => aside.omits h wf wf' le'

theorem Omitting.bind {x : EngineM α} {f : α → EngineM β} {Q : α → Store → Prop} {R : β → Store → Prop}
    (hx : Omitting v e s x Q)
    (hf : ∀ a e' s', s'.WellFormed → s ≤ s' → e'.Omits v s' → Q a s' → Omitting v e' s' (f a) R) :
    Omitting v e s (x >>= f) R := by
  refine TermM.Ensures.bind hx ?_
  rintro a e₁ s₁ wf₁ le₁ ⟨h₁, ha⟩
  exact hf a e₁ s₁ wf₁ le₁ h₁ ha

/-- That a failure is noted makes no difference. -/
theorem Omitting.poison {x : EngineM α} {Q : α → Store → Prop} (hx : Omitting v e s x Q) :
    Omitting v e s (poisonOnError x) Q :=
  poisonOnError_spec hx fun _ _ _ _ h => ⟨h.equations, h.rules, h.away⟩

section
variable (preserves : ctx.order.Preserves)
include preserves

theorem normalizeOne_lacks {rules equations : List Equation} {r : Ref} (wf : s.WellFormed)
    (hr : s.OmitsAll v rules) (he : s.OmitsAll v equations) (away : ¬ e.workspace.supply.Offers v)
    (ht : s.Lacks v r) : Leaves e s (normalizeOne ctx rules equations r) fun out s' => s'.Lacks v out := by
  refine reduceWith_spec fun rd st order rules equations workspace memo => ?_
  subst rules equations
  exact (Reducer.normalize_lacks (order ▸ preserves) hr he wf (Reducer.noted_nothing memo) ht
    (workspace ▸ away)).mono (fun _ _ _ _ _ h => h.imp_left (·.later)) fun _ _ _ _ h => h.later

theorem normalizeWith_lacks {rules equations : List Equation} {rs : List Ref} (wf : s.WellFormed)
    (hr : s.OmitsAll v rules) (he : s.OmitsAll v equations) (away : ¬ e.workspace.supply.Offers v)
    (hts : ∀ r ∈ rs, s.Lacks v r) :
    Leaves e s (normalizeWith ctx rules equations rs) fun outs s' => ∀ out ∈ outs, s'.Lacks v out := by
  refine reduceWith_spec fun rd st order rules equations workspace memo => ?_
  subst rules equations
  exact (Reducer.normalizeAll_lacks (order ▸ preserves) hr he wf (Reducer.noted_nothing memo) hts
    (workspace ▸ away)).mono (fun _ _ _ _ _ h => h.imp_left (·.later)) fun _ _ _ _ h => h.later

theorem superposition_omits (sp : Superposer) {withEquations : Bool} (wf : s.WellFormed) (h : e.Omits v s)
    (heq : s.Has .full eq) (away : ¬ sp.workspace.supply.Offers v) :
    TermM.Ensures sp s (superposition ctx e eq withEquations)
      (fun pairs sp' s' => sp.workspace.supply.Later sp'.workspace.supply ∧ s'.OmitsAll v pairs)
      fun sp' _ => sp.workspace.supply.Later sp'.workspace.supply := by
  have has : ∀ d ∈ e.donors eq withEquations, s.Has .full d.1 ∧ s.Has .full d.2 := by
    refine forall_donors heq (h.rules.hasAll wf) fun _ => ⟨heq.reversed, fun d hd => ?_⟩
    have known := h.equations.hasAll wf d hd
    exact ⟨known, known.reversed⟩
  cases withEquations with
  | false => exact Superposer.superposeAll_lacks preserves wf has away
  | true => exact Superposer.superposeAll_lacks preserves wf has away

theorem superpose_omits {withEquations : Bool} (wf : s.WellFormed) (h : e.Omits v s) (heq : s.Has .full eq) :
    Omitting v e s (superpose ctx eq withEquations) fun pairs s' => s'.OmitsAll v pairs := by
  rw [superpose]
  refine .bindGet (.bindLift (superposition_omits preserves e.superposer wf h heq h.away).toStore ?_)
  rintro ⟨outcome, sp⟩ s₁ wf₁ le₁ hout
  refine .bindSet ?_
  have still : e.workspace.supply.Later sp.workspace.supply →
      Engine.Omits v s₁ { e with workspace := sp.workspace, seen := sp.seen } := fun later =>
    Beside.omits (e := e) ⟨rfl, rfl, rfl, rfl, later⟩ h wf wf₁ le₁
  cases outcome with
  | ok pairs => exact .pure wf₁ ⟨still hout.1, hout.2⟩
  | error err => exact fail_spec wf₁ (still hout)

theorem collapseBy_omits {rules : List Equation} (wf : s.WellFormed) (h : e.Omits v s) (hab : s.Omits v ab)
    (hr : s.OmitsAll v rules) : Omitting v e s (collapseBy ctx ab rules) fun _ _ => True := by
  induction rules generalizing e s with
  | nil => exact .pure wf ⟨h, trivial⟩
  | cons rule rules ih =>
      rw [collapseBy]
      have single : s.OmitsAll v [ab] := List.forall_mem_singleton.2 hab
      have sides := Store.omits_iff.1 (hr rule List.mem_cons_self)
      refine ((normalizeOne_lacks preserves wf single (fun _ h => by cases h) h.away
        sides.1).omitting h wf).bind ?_
      intro lhs e₁ s₁ wf₁ le₁ h₁ lacks
      have goOn : ∀ {e₂ : Engine}, e₂.Omits v s₁ →
          Omitting v e₂ s₁ (collapseBy ctx ab rules) fun _ _ => True := fun h₂ =>
        ih wf₁ h₂ (hab.mono wf wf₁ le₁) ((hr.of_subset (List.subset_cons_self rule rules)).mono wf wf₁ le₁)
      split
      · refine .bindModify (goOn ⟨fun d hd => ?_, h₁.rules.of_subset List.filter_sublist.subset, h₁.away⟩)
        rcases mem_addFront.1 hd with rfl | hd
        · exact Store.omits_iff.2 ⟨lacks, sides.2.mono wf wf₁ le₁⟩
        · exact h₁.equations d hd
      · exact goOn h₁

theorem findComposable_omits (before : List Equation) {rules : List Equation} (wf : s.WellFormed)
    (h : s.OmitsAll v (before ++ rules)) (away : ¬ e.workspace.supply.Offers v) :
    Leaves e s (findComposable ctx before rules) fun out s' => ∀ before' new after,
      out = some (before', new, after) → s'.OmitsAll v (before' ++ new :: after) := by
  induction rules generalizing e s before with
  | nil => exact .pure wf nofun
  | cons rule after ih =>
      rw [findComposable]
      have sides := Store.omits_iff.1 (h rule (by simp))
      have others : s.OmitsAll v (before ++ after) := h.of_subset subset_around
      refine (normalizeOne_lacks preserves wf others (fun _ h => by cases h) away sides.2).thread ?_
      intro rhs e₁ s₁ wf₁ le₁ aside lacks
      split
      · refine .pure wf₁ ?_
        rintro _ _ _ ⟨⟩ d hd
        by_cases here : d = ⟨rule.lhs, rhs⟩
        · exact here ▸ Store.omits_iff.2 ⟨sides.1.mono wf wf₁ le₁, lacks⟩
        · exact others.mono wf wf₁ le₁ d (mem_around hd here)
      · refine ih _ wf₁ ?_ fun offered => away (aside.later.offers v offered)
        rw [List.append_assoc]
        exact h.mono wf wf₁ le₁

theorem compose_omits {n : Nat} (wf : s.WellFormed) (h : e.Omits v s) :
    Omitting v e s (compose ctx n) fun _ _ => True := by
  induction n generalizing e s with
  | zero => exact .throw wf h
  | succ n ih =>
      rw [compose]
      refine .bindGet (((findComposable_omits preserves [] wf h.rules h.away).omitting h wf).bind ?_)
      intro out e₁ s₁ wf₁ le₁ h₁ found
      split
      · exact .pure wf₁ ⟨h₁, trivial⟩
      · rename_i before new after
        have all := found before new after rfl
        refine .bindModify (ih wf₁ ⟨h₁.equations, fun d hd => all d ?_, h₁.away⟩)
        rcases mem_composed.1 hd with hd | rfl
        · exact subset_around hd
        · simp

theorem simplify_omits (wf : s.WellFormed) (h : e.Omits v s) :
    Omitting v e s (simplify ctx) fun _ _ => True := by
  rw [simplify]
  have sides : ∀ r ∈ e.bothSides, s.Lacks v r := by
    intro r hr
    obtain ⟨d, hd, side⟩ := List.mem_flatMap.1 hr
    have both := Store.omits_iff.1 (h.equations d hd)
    rcases List.mem_pair.1 side with rfl | rfl
    · exact both.1
    · exact both.2
  refine .bindGet (((normalizeWith_lacks preserves wf h.rules (fun _ h => by cases h) h.away sides).omitting
    h wf).bind ?_)
  intro outs e₁ s₁ wf₁ le₁ h₁ lacks
  refine .modify wf₁ ⟨⟨fun d hd => ?_, h₁.rules, h₁.away⟩, trivial⟩
  obtain ⟨left, right, -⟩ := (pairUp_sides hd).resolve_left List.not_mem_nil
  exact Store.omits_iff.2 ⟨lacks _ left, lacks _ right⟩

theorem sortWorklist_omits (wf : s.WellFormed) (h : e.Omits v s) :
    Omitting v e s (sortWorklist ctx) fun _ _ => True := by
  rw [sortWorklist]
  refine .bindGet ?_
  split
  · refine ((partitionOrientable_spec preserves.obeys wf (h.fine wf).equations).omitting h wf).bind ?_
    rintro ⟨oriented, others⟩ e₁ s₁ wf₁ le₁ h₁ parts
    refine .bindStore (.modify wf₁ ⟨⟨?_, h₁.rules, h₁.away⟩, trivial⟩)
    have perm := ((Text.sortByText_perm (e.renderPair ctx.symbols s₁ "=") oriented).append
      (Text.sortByText_perm (e.renderPair ctx.symbols s₁ "=") others)).trans parts
    exact (h.equations.mono wf wf₁ le₁).of_subset perm.subset
  · refine .bindStore (.modify wf ⟨⟨?_, h.rules, h.away⟩, trivial⟩)
    exact h.equations.of_subset (Text.sortByText_perm _ _).subset

theorem interreduce_omits (wf : s.WellFormed) (h : e.Omits v s) :
    Omitting v e s (interreduce ctx) fun _ _ => True := by
  rw [interreduce]
  refine (compose_omits preserves wf h).bind fun _ e₁ s₁ wf₁ _ h₁ _ => ?_
  refine (simplify_omits preserves wf₁ h₁).bind fun _ e₂ s₂ wf₂ _ h₂ _ => .bindGet ?_
  have tidies : ∀ {e : Engine} {s : Store}, s.WellFormed → e.Omits v s → Omitting v e s (do
      let equations ← removeSubsumed [] (← get).equations
      modify fun e => { e with equations }) fun _ _ => True := by
    intro e s wf h
    refine .bindGet (.bindLift (removeSubsumed_spec (G := .free) wf (h.fine wf).equations) ?_)
    rintro out s' wf' le' ⟨-, fewer, -⟩
    have h' := (Aside.refl e).omits h wf wf' le'
    exact .modify wf' ⟨⟨h'.equations.of_subset fewer.subset, h'.rules, h'.away⟩, trivial⟩
  split
  · exact (sortWorklist_omits preserves wf₂ h₂).bind fun _ e₃ s₃ wf₃ _ h₃ _ => tidies wf₃ h₃
  · exact tidies wf₂ h₂

theorem addRule_omits (wf : s.WellFormed) (h : e.Omits v s) (hab : s.Omits v ab) :
    Omitting v e s (addRule ctx eq ab) fun _ _ => True := by
  rw [addRule]
  refine .bindModify ?_
  have with_ : Engine.Omits v s (e.withRule ab) := by
    refine ⟨h.equations, fun d hd => ?_, h.away⟩
    rcases Superposition.mem_addNew.1 hd with hd | rfl
    · exact h.rules d hd
    · exact hab
  have isRule : ab ∈ (e.withRule ab).rules := Superposition.mem_addNew.2 (.inr rfl)
  refine (superpose_omits preserves wf with_ ((with_.fine wf).rules ab isRule)).bind ?_
  intro pairs e₁ s₁ wf₁ le₁ h₁ omits
  refine .bindGet (.bindLift (filterSubsumed_spec wf₁ (h₁.fine wf₁).equations (omits.hasAll wf₁)) ?_)
  rintro kept s₂ wf₂ le₂ ⟨-, mem⟩
  have h₂ := (Aside.refl e₁).omits h₁ wf₁ wf₂ le₂
  refine .bindModify (.bindGet ?_)
  refine collapseBy_omits preserves wf₂ ⟨fun d hd => ?_, h₂.rules, h₂.away⟩ (hab.mono wf wf₂ (le₁.trans le₂))
    (h₂.rules.of_subset List.filter_sublist.subset)
  rcases Superposition.mem_foldl_addNew.1 (mem_remove.1 hd).1 with hd | hd
  · exact h₂.equations d hd
  · exact (omits.mono wf₁ wf₂ le₂) d ((mem d).1 hd).1

theorem collectPairs_omits {sources : List (Equation × Bool)} (wf : s.WellFormed) (h : e.Omits v s)
    (has : ∀ source ∈ sources, s.Has .full source.1) :
    Omitting v e s (collectPairs ctx sources) fun out s' => s'.OmitsAll v out.2 := by
  induction sources generalizing e s with
  | nil => exact .pure wf ⟨h, nofun⟩
  | cons source sources ih =>
      obtain ⟨eq, withEquations⟩ := source
      rw [collectPairs]
      refine (superpose_omits preserves wf h (has _ List.mem_cons_self)).bind ?_
      intro pairs e₁ s₁ wf₁ le₁ h₁ omits
      refine .bindGet (.bindLift (filterSubsumed_spec wf₁ (h₁.fine wf₁).equations (omits.hasAll wf₁)) ?_)
      rintro kept s₂ wf₂ le₂ ⟨-, mem⟩
      refine (ih wf₂ ((Aside.refl e₁).omits h₁ wf₁ wf₂ le₂) fun source hsource =>
        (has source (List.mem_cons_of_mem _ hsource)).mono wf wf₂ (le₁.trans le₂)).bind ?_
      rintro ⟨n, more⟩ e₃ s₃ wf₃ le₃ h₃ omits₃
      refine .pure wf₃ ⟨h₃, fun d hd => ?_⟩
      rcases List.mem_append.1 hd with hd | hd
      · exact omits.mono wf₁ wf₃ (le₂.trans le₃) d ((mem d).1 hd).1
      · exact omits₃ d hd

theorem defer_omits (wf : s.WellFormed) (h : e.Omits v s) (heq : s.Omits v eq) :
    Omitting v e s (defer ctx eq) fun _ _ => True := by
  rw [defer]
  refine .bindModify ?_
  have moved : Engine.Omits v s { e with
      metrics := e.metrics.recordDeferred, equations := remove e.equations eq ++ [eq] } := by
    refine ⟨fun d hd => ?_, h.rules, h.away⟩
    rcases List.mem_append.1 hd with hd | hd
    · exact h.equations d (mem_remove.1 hd).1
    · exact List.mem_singleton.1 hd ▸ heq
  have has : ∀ source ∈ [(eq, false), (eq.reversed, false), (eq, true), (eq.reversed, true)],
      s.Has .full source.1 := by
    have both : s.OmitsAll v [eq, eq.reversed] :=
      List.forall_mem_cons.2 ⟨heq, List.forall_mem_singleton.2 (Store.Omits.reversed heq)⟩
    have known := both.hasAll wf
    simp [known eq, known eq.reversed]
  refine (collectPairs_omits preserves wf moved has).bind ?_
  rintro ⟨n, kept⟩ e₁ s₁ wf₁ le₁ h₁ omits
  refine .modify wf₁ ⟨⟨fun d hd => ?_, h₁.rules, h₁.away⟩, trivial⟩
  rcases Superposition.mem_foldl_addNew.1 hd with hd | hd
  · exact h₁.equations d hd
  · exact omits d hd

theorem advanceInner_omits (wf : s.WellFormed) (h : e.Omits v s) :
    Omitting v e s (advanceInner ctx) fun _ _ => True := by
  rw [advanceInner]
  refine .bindModify ?_
  have h₀ : Engine.Omits v s { e with steps := e.steps + 1, metrics := e.metrics.recordStep } :=
    ⟨h.equations, h.rules, h.away⟩
  refine ((pick_spec preserves.obeys wf (h₀.fine wf)).omitting h₀ wf).bind ?_
  intro eq e₁ s₁ wf₁ le₁ h₁ mem
  have heq : s₁.Omits v eq := h.equations.mono wf wf₁ le₁ eq mem
  have has := Store.OmitsAll.hasAll (h.equations.mono wf wf₁ le₁) wf₁ eq mem
  refine ((orient_spec preserves.obeys wf₁ has).omitting h₁ wf₁).bind ?_
  rintro out e₂ s₂ wf₂ le₂ h₂ ⟨directs, -⟩
  have heq₂ : s₂.Omits v eq := Store.Among.mono heq wf₁ wf₂ le₂
  split
  · rename_i ab
    have hab : s₂.Omits v ab := by
      rcases (directs ab rfl).same with rfl | rfl
      · exact heq₂
      · exact Store.Omits.reversed heq₂
    exact (addRule_omits preserves wf₂ h₂ hab).bind fun _ e₃ s₃ wf₃ _ h₃ _ => interreduce_omits preserves wf₃ h₃
  · split
    · refine .modify wf₂ ⟨⟨?_, h₂.rules, h₂.away⟩, trivial⟩
      exact h₂.equations.of_subset List.filter_sublist.subset
    · have deferred : ∀ {e : Engine} {s : Store}, s.WellFormed → s₂ ≤ s → e.Omits v s →
          Omitting v e s (do defer ctx eq; interreduce ctx) fun _ _ => True := by
        intro e s wf' le' h'
        refine (defer_omits preserves wf' h' (Store.Among.mono heq₂ wf₂ wf' le')).bind ?_
        exact fun _ e₃ s₃ wf₃ _ h₃ _ => interreduce_omits preserves wf₃ h₃
      refine .bindGet ?_
      split
      · refine .bindGet (.bindStore ?_)
        exact Omitting.bind (Q := fun _ _ => True) (fail_spec (α := PUnit) wf₂ h₂)
          fun _ e₃ s₃ wf₃ le₃ h₃ _ => deferred wf₃ le₃ h₃
      · exact deferred wf₂ le_rfl h₂

theorem advance_omits (wf : s.WellFormed) (h : e.Omits v s) : Omitting v e s (advance ctx) fun _ _ => True :=
  (advanceInner_omits preserves wf h).poison

theorem checkTerminal_omits (wf : s.WellFormed) (h : e.Omits v s) :
    Omitting v e s (checkTerminal ctx) fun _ _ => True := by
  rw [checkTerminal]
  refine .bindGet ?_
  split
  · exact .pure wf ⟨h, trivial⟩
  · exact .pure wf ⟨h, trivial⟩
  · exact fail_spec wf h
  · refine .bindGet ?_
    dsimp only
    split
    · exact .bindModify (.pure wf ⟨⟨h.equations, h.rules, h.away⟩, trivial⟩)
    · refine ((allUnorientable_spec preserves.obeys wf (h.fine wf).equations).omitting h wf).bind ?_
      intro yes e₁ s₁ wf₁ le₁ h₁ _
      split
      · exact .pure wf₁ ⟨h₁, trivial⟩
      · refine ((allPairsJoin_spec preserves.obeys wf₁ (h₁.fine wf₁)).omitting h₁ wf₁).poison.bind ?_
        intro joined e₂ s₂ wf₂ le₂ h₂ _
        split
        · exact .pure wf₂ ⟨h₂, trivial⟩
        · exact .bindModify (.pure wf₂ ⟨⟨h₂.equations, h₂.rules, h₂.away⟩, trivial⟩)

theorem step_omits (wf : s.WellFormed) (h : e.Omits v s) : Omitting v e s (step ctx) fun _ _ => True := by
  rw [step]
  refine (checkTerminal_omits preserves wf h).bind fun yes e₁ s₁ wf₁ _ h₁ _ => ?_
  split
  · exact .pure wf₁ ⟨h₁, trivial⟩
  · exact (advance_omits preserves wf₁ h₁).bind fun _ e₂ s₂ wf₂ _ h₂ _ => .pure wf₂ ⟨h₂, trivial⟩

theorem completeFrom_omits {fuel taken : Nat} (wf : s.WellFormed) (h : e.Omits v s) :
    Omitting v e s (completeFrom ctx fuel taken) fun _ _ => True := by
  induction fuel generalizing e s taken with
  | zero => exact .throw wf h
  | succ fuel ih =>
      rw [completeFrom]
      refine (checkTerminal_omits preserves wf h).bind fun yes e₁ s₁ wf₁ _ h₁ _ => ?_
      split
      · exact .pure wf₁ ⟨h₁, trivial⟩
      · refine ((checkBudget_spec wf₁).omitting h₁ wf₁).bind fun _ e₂ s₂ wf₂ _ h₂ _ => ?_
        exact (advance_omits preserves wf₂ h₂).bind fun _ e₃ s₃ wf₃ _ h₃ _ => ih wf₃ h₃

theorem equalFrom_omits {fuel taken : Nat} (wf : s.WellFormed) (h : e.Omits v s) (has : s.Has .full eq) :
    Omitting v e s (equalFrom ctx eq fuel taken) fun _ _ => True := by
  induction fuel generalizing e s taken with
  | zero => exact .throw wf h
  | succ fuel ih =>
      rw [equalFrom]
      obtain ⟨l, r, means, hl, hr⟩ := id has
      refine ((normalizeSides_spec preserves.obeys wf (h.fine wf).reducibleActive means hl hr).omitting h wf).bind
        fun out e₁ s₁ wf₁ le₁ h₁ _ => ?_
      split
      · exact .pure wf₁ ⟨h₁, trivial⟩
      · refine (checkTerminal_omits preserves wf₁ h₁).bind fun yes e₂ s₂ wf₂ le₂ h₂ _ => ?_
        split
        · exact .pure wf₂ ⟨h₂, trivial⟩
        · refine ((checkBudget_spec wf₂).omitting h₂ wf₂).bind fun _ e₃ s₃ wf₃ le₃ h₃ _ => ?_
          refine (advance_omits preserves wf₃ h₃).bind fun _ e₄ s₄ wf₄ le₄ h₄ _ => ih wf₄ h₄ ?_
          exact has.mono wf wf₄ (le₁.trans (le₂.trans (le₃.trans le₄)))

theorem equal_omits (wf : s.WellFormed) (h : e.Omits v s) (has : s.Has .full eq) :
    Omitting v e s (equal ctx eq) fun _ _ => True := by
  obtain ⟨l, r, ⟨hl, hr⟩, -⟩ := id has
  rw [equal]
  refine ((ensureUsable_spec wf).omitting h wf).bind fun _ e₁ s₁ wf₁ le₁ h₁ _ => ?_
  refine ((reserve_spec wf₁ (hl.mono wf wf₁ le₁)).omitting h₁ wf₁).bind fun _ e₂ s₂ wf₂ le₂ h₂ _ => ?_
  refine ((reserve_spec wf₂ (hr.mono wf wf₂ (le₁.trans le₂))).omitting h₂ wf₂).bind ?_
  intro _ e₃ s₃ wf₃ le₃ h₃ _
  exact .bindModify (equalFrom_omits preserves wf₃ ⟨h₃.equations, h₃.rules, h₃.away⟩
    (has.mono wf wf₃ (le₁.trans (le₂.trans le₃))))

theorem reduce_omits {r : Ref} {a : Term} (wf : s.WellFormed) (h : e.Omits v s) (hd : s.Denotes r a)
    (ha : a.Over .full) : Omitting v e s (reduce ctx r) fun _ _ => True := by
  rw [reduce]
  refine ((ensureUsable_spec wf).omitting h wf).bind fun _ e₁ s₁ wf₁ le₁ h₁ _ => ?_
  refine ((reserve_spec wf₁ (hd.mono wf wf₁ le₁)).omitting h₁ wf₁).bind fun _ e₂ s₂ wf₂ le₂ h₂ _ => ?_
  refine .bindGet (((normalizeOne_spec preserves.obeys wf₂ (h₂.fine wf₂).reducibleActive
    (hd.mono wf wf₂ (le₁.trans le₂)) ha).omitting h₂ wf₂).mono (fun _ _ _ _ _ h => ⟨h.1, trivial⟩) ?_)
  exact fun _ _ _ _ h => h

theorem normalForm_omits {r : Ref} {a : Term} (wf : s.WellFormed) (h : e.Omits v s) (hd : s.Denotes r a)
    (ha : a.Over .full) : Omitting v e s (normalForm ctx r) fun _ _ => True := by
  rw [normalForm]
  refine ((ensureUsable_spec wf).omitting h wf).bind fun _ e₁ s₁ wf₁ le₁ h₁ _ => ?_
  refine .bindGet (.bindLift (Store.isGround_spec wf₁ (hd.mono wf wf₁ le₁)) fun ground s₂ wf₂ le₂ _ => ?_)
  have h₂ := (Aside.refl e₁).omits h₁ wf₁ wf₂ le₂
  have reduces : ∀ {e : Engine} {s' : Store}, s'.WellFormed → s ≤ s' → e.Omits v s' →
      Omitting v e s' (reduce ctx r) fun _ _ => True := fun wf' le' h' =>
    reduce_omits preserves wf' h' (hd.mono wf wf' le') ha
  have refuses : ∀ failure, Omitting v e₁ s₂ (do fail ctx failure; reduce ctx r) fun _ _ => True := by
    intro failure
    exact Omitting.bind (Q := fun _ _ => True) (fail_spec (α := PUnit) wf₂ h₂)
      fun _ e₃ s₃ wf₃ le₃ h₃ _ => reduces wf₃ ((le₁.trans le₂).trans le₃) h₃
  dsimp only
  split
  · split
    · exact refuses _
    · exact reduces wf₂ (le₁.trans le₂) h₂
  · split
    · exact refuses _
    · exact reduces wf₂ (le₁.trans le₂) h₂

/-- No call brings the variable in, not even one about terms that contain it. -/
theorem Call.run_omits (c : Call) (wf : s.WellFormed) (h : e.Omits v s)
    (known : ∀ r ∈ c.refs, ∃ a, s.Denotes r a ∧ a.Over .full) :
    (c.run ctx e s).1.Omits v (c.run ctx e s).2 := by
  have outcome : ∀ {α : Type} {x : EngineM α}, Omitting v e s x (fun _ _ => True) →
      (after x e s).1.Omits v (after x e s).2 := by
    rintro α x ⟨-, -, out⟩
    rw [after]
    cases hr : (x e s).1.1 with
    | ok a =>
        rw [hr] at out
        exact out.1
    | error halt =>
        rw [hr] at out
        exact out
  cases c with
  | step => exact outcome (step_omits preserves wf h)
  | complete =>
      refine outcome ?_
      rw [Engine.complete]
      exact .bindModify (completeFrom_omits preserves wf ⟨h.equations, h.rules, h.away⟩)
  | equal eq =>
      obtain ⟨l, hl, inSig⟩ := known eq.lhs (by simp [Call.refs])
      obtain ⟨r, hr, inSig'⟩ := known eq.rhs (by simp [Call.refs])
      exact outcome (equal_omits preserves wf h ⟨l, r, ⟨hl, hr⟩, inSig, inSig'⟩)
  | reduce r =>
      obtain ⟨a, ha, inSig⟩ := known r (by simp [Call.refs])
      exact outcome (reduce_omits preserves wf h ha inSig)
  | normalForm r =>
      obtain ⟨a, ha, inSig⟩ := known r (by simp [Call.refs])
      exact outcome (normalForm_omits preserves wf h ha inSig)
  | setBudget maxSteps timeLimit => exact ⟨h.equations, h.rules, h.away⟩
  | cancel => exact ⟨h.equations, h.rules, h.away⟩

end
end OrderedCompletion.Engine
