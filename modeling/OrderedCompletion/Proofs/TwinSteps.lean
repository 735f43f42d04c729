import OrderedCompletion.Proofs.TwinTexts

/-! One step of completion, side by side. -/

namespace OrderedCompletion

open Term Parallel TermM

namespace Parallel

variable {P : Parallel} {r q : Ref} {c : Term × Term} {d d' : Equation}

theorem TwinRule.biUnique (P : Parallel) : Relator.BiUnique P.TwinRule :=
  ⟨fun _ _ _ h h' => (TwinEq.biUnique P).1 h.twinEq h'.twinEq,
    fun _ _ _ h h' => (TwinEq.biUnique P).2 h.twinEq h'.twinEq⟩

/-- A rule whose right side was replaced by what became of it. -/
theorem Shows.twinRule (h : P.Shows c d d') (keeps : c.1.Keeps c.2) (right : P.Kept c.2 r q) :
    P.TwinRule ⟨d.lhs, r⟩ ⟨d'.lhs, q⟩ := by
  obtain ⟨b, reads, keeps'⟩ := right
  exact ⟨(c.1, b), ⟨h.lhs, reads, h.ordered.mono fun v hv => hv.imp_right (keeps' v)⟩, keeps.trans keeps'⟩

end Parallel

namespace Engine

variable {P : Parallel} {e e' : Engine} {ctx : Context} {gt : Term → Term → Prop} {eq eq' ab ab' : Equation}
variable {es ds : List Equation} {α α' β β' : Type}

theorem Moves.bind {x : EngineM α} {y : EngineM α'} {f : α → EngineM β} {g : α' → EngineM β'}
    {Q : Parallel → α → α' → Prop} {R : Parallel → β → β' → Prop} (hx : Moves P e e' x y Q)
    (hf : ∀ P' a a' e₁ e₁', P.Extends P' → Twins P' e₁ e₁' → Q P' a a' → Moves P' e₁ e₁' (f a) (g a') R) :
    Moves P e e' (x >>= f) (y >>= g) R :=
  Mirrors.bind hx fun P' a a' e₁ e₁' ext h => hf P' a a' e₁ e₁' ext h.1 h.2

theorem fail_mirrors {failure : Failure} {y : EngineM α'} {Q : Parallel → α → α' → Engine → Engine → Prop} :
    Mirrors P e e' (fail ctx failure : EngineM α) y Q := by
  rintro - - _ _ _ ⟨⟩

variable (judges : ctx.order.Judges WordSized .full gt) (quiet : ∀ s r q, ctx.order.alarm s r q = false)
include judges quiet

theorem findOrientable_glances (h : List.Forall₂ P.TwinEq es ds) :
    Glances P e e' (findOrientable ctx es) (findOrientable ctx ds) fun P' => Option.Rel P'.TwinEq := by
  induction es generalizing P e e' ds with
  | nil =>
      cases h
      exact .pure .none
  | cons eq es ih =>
      cases h with
      | @cons _ eq' _ ds here rest =>
      rw [findOrientable, findOrientable]
      refine (orientable_glances judges quiet here).bind ?_
      rintro P₁ _ yes e₁ e₁' ext still still' rfl
      cases yes with
      | true => exact .pure (.some (here.mono ext))
      | false => exact ih (rest.imp fun _ _ h => h.mono ext)

theorem pick_glances (h : Twins P e e') : Glances P e e' (pick ctx) (pick ctx) fun P' => P'.TwinEq := by
  rw [pick]
  refine .bindGet ((findOrientable_glances judges quiet h.equations).bind ?_)
  intro P₁ found found' e₁ e₁' ext still still' both
  cases both with
  | some twins => exact .pure twins
  | none =>
      have equations := (h.mono ext).equations
      revert equations
      generalize e.equations = es
      generalize e'.equations = ds
      rintro (_ | ⟨first, rest⟩)
      · exact fail_mirrors
      · exact .pure first

/-- Rules bring in no variables because the order does not. -/
theorem orient_glances (h : P.TwinEq eq eq') :
    Glances P e e' (orient ctx eq) (orient ctx eq') fun P' => Option.Rel P'.TwinRule := by
  obtain ⟨c, h⟩ := h
  rw [orient, orient]
  refine (ask_glances judges quiet h.lhs h.rhs).bind ?_
  rintro P₁ _ yes e₁ e₁' ext still still' ⟨rfl, less⟩
  cases yes with
  | true => exact .pure (.some ⟨c, h.mono ext, judges.blind.vars (less.1 rfl)⟩)
  | false =>
      refine (ask_glances judges quiet (h.rhs.mono ext) (h.lhs.mono ext)).bind ?_
      rintro P₂ _ yes e₂ e₂' ext₂ still₂ still₂' ⟨rfl, less⟩
      cases yes with
      | true => exact .pure (.some ⟨c.swap, ((h.mono ext).mono ext₂).reversed, judges.blind.vars (less.1 rfl)⟩)
      | false => exact .pure .none

theorem collapseBy_moves {rules rules' : List Equation} (h : Twins P e e') (hab : P.TwinRule ab ab')
    (hrules : List.Forall₂ P.TwinRule rules rules') :
    Moves P e e' (collapseBy ctx ab rules) (collapseBy ctx ab' rules') fun _ _ _ => True := by
  induction rules generalizing P e e' rules' with
  | nil =>
      cases hrules
      exact .pure ⟨h, trivial⟩
  | cons rule rules ih =>
      cases hrules with
      | @cons _ rule' _ rules' here rest =>
      obtain ⟨c, shows, keeps⟩ := id here
      rw [collapseBy, collapseBy]
      refine ((normalizeOne_glances judges quiet h (.cons hab .nil) .nil shows.lhs).moves h).bind ?_
      intro P₁ r q e₁ e₁' ext h₁ kept
      have onward : ∀ {e e' : Engine}, Twins P₁ e e' → _ := fun h =>
        ih h (hab.mono ext) (rest.imp fun _ _ h => h.mono ext)
      have same : r = rule.lhs ↔ q = rule'.lhs := by
        obtain ⟨b, reads, -⟩ := kept
        exact reads.eq_iff (shows.lhs.mono ext)
      by_cases stays : r = rule.lhs
      · rw [if_neg fun differs => differs stays, if_neg fun differs => differs (same.1 stays)]
        exact onward h₁
      · rw [if_pos stays, if_pos fun stays' => stays (same.2 stays')]
        refine .bindModify rfl rfl (onward ?_)
        have front : P₁.TwinEq ⟨r, rule.rhs⟩ ⟨q, rule'.rhs⟩ := (shows.mono ext).kept kept (shows.mono ext).rhs.kept
        exact { h₁ with
          equations := addFront_rel (TwinEq.biUnique P₁) front h₁.equations
          rules := remove_rel (TwinRule.biUnique P₁) (here.mono ext) h₁.rules }

/-- A rule with the rules before and after it. -/
def TwinSplit (P : Parallel) (x y : List Equation × Equation × List Equation) : Prop :=
  List.Forall₂ P.TwinRule x.1 y.1 ∧ P.TwinRule x.2.1 y.2.1 ∧ List.Forall₂ P.TwinRule x.2.2 y.2.2

theorem findComposable_glances {before before' after after' : List Equation} (h : Twins P e e')
    (hbefore : List.Forall₂ P.TwinRule before before') (hafter : List.Forall₂ P.TwinRule after after') :
    Glances P e e' (findComposable ctx before after) (findComposable ctx before' after') fun P' =>
      Option.Rel (TwinSplit P') := by
  induction after generalizing P e e' before before' after' with
  | nil =>
      cases hafter
      exact .pure .none
  | cons rule after ih =>
      cases hafter with
      | @cons _ rule' _ after' here rest =>
      obtain ⟨c, shows, keeps⟩ := id here
      rw [findComposable, findComposable]
      refine (normalizeOne_glances judges quiet h (List.rel_append hbefore rest) .nil shows.rhs).bind ?_
      intro P₁ r q e₁ e₁' ext still still' kept
      have same : r = rule.rhs ↔ q = rule'.rhs := by
        obtain ⟨b, reads, -⟩ := kept
        exact reads.eq_iff (shows.rhs.mono ext)
      have before₁ := hbefore.imp fun _ _ h => h.mono ext
      have after₁ := rest.imp fun _ _ h => h.mono ext
      by_cases stays : r = rule.rhs
      · rw [if_neg fun differs => differs stays, if_neg fun differs => differs (same.1 stays)]
        exact ih ((h.mono ext).still still still') (List.rel_append before₁ (.cons (here.mono ext) .nil)) after₁
      · rw [if_pos stays, if_pos fun stays' => stays (same.2 stays')]
        exact .pure (.some ⟨before₁, (shows.mono ext).twinRule keeps kept, after₁⟩)

theorem compose_moves {n : Nat} (h : Twins P e e') :
    Moves P e e' (compose ctx n) (compose ctx n) fun _ _ _ => True := by
  induction n generalizing P e e' with
  | zero => exact .throw
  | succ n ih =>
      rw [compose]
      refine .bindGet (((findComposable_glances judges quiet h .nil h.rules).moves h).bind ?_)
      intro P₁ found found' e₁ e₁' ext h₁ both
      cases both with
      | none => exact .pure ⟨h₁, trivial⟩
      | @some x y split =>
          obtain ⟨before, rule, after⟩ := x
          obtain ⟨before', rule', after'⟩ := y
          obtain ⟨hbefore, hrule, hafter⟩ := split
          have others := List.rel_append hbefore hafter
          refine .bindModify rfl rfl (ih { h₁ with rules := ?_ })
          have mem : rule ∈ before ++ after ↔ rule' ∈ before' ++ after' :=
            List.rel_mem (TwinRule.biUnique P₁) hrule others
          by_cases old : rule ∈ before ++ after
          · rwa [if_pos old, if_pos (mem.1 old)]
          · rw [if_neg old, if_neg fun old' => old (mem.2 old')]
            exact List.rel_append hbefore (.cons hrule hafter)

omit judges quiet in
theorem pairUp_twins {found found' : List Equation} (hfound : List.Forall₂ P.TwinEq found found')
    (h : List.Forall₂ P.TwinEq es ds) :
    List.Forall₂ P.TwinEq (pairUp found (Reducer.sidesOf es)) (pairUp found' (Reducer.sidesOf ds)) := by
  induction h generalizing found found' with
  | nil => exact hfound
  | @cons e d es ds here _ ih =>
      change List.Forall₂ P.TwinEq (pairUp found (e.lhs :: e.rhs :: Reducer.sidesOf es))
        (pairUp found' (d.lhs :: d.rhs :: Reducer.sidesOf ds))
      rw [pairUp, pairUp]
      have same : d.lhs = d.rhs ↔ e.lhs = e.rhs := decide_eq_decide.1 here.isTrivial_eq
      by_cases trivial : e.lhs = e.rhs
      · rw [if_pos trivial, if_pos (same.2 trivial)]
        exact ih hfound
      · rw [if_neg trivial, if_neg fun trivial' => trivial (same.1 trivial')]
        exact ih (addNew_rel (TwinEq.biUnique P) here hfound)

theorem simplify_moves (h : Twins P e e') : Moves P e e' (simplify ctx) (simplify ctx) fun _ _ _ => True := by
  rw [simplify]
  refine .bindGet (((normalizeWith_glances judges quiet h h.rules .nil h.equations).moves h).bind ?_)
  rintro P₁ _ _ e₁ e₁' ext h₁ ⟨es, ds, rfl, rfl, twins⟩
  exact .modify rfl rfl ⟨{ h₁ with equations := pairUp_twins .nil twins }, trivial⟩

theorem partitionOrientable_glances (h : List.Forall₂ P.TwinEq es ds) :
    Glances P e e' (partitionOrientable ctx es) (partitionOrientable ctx ds) fun P' x y =>
      List.Forall₂ P'.TwinEq x.1 y.1 ∧ List.Forall₂ P'.TwinEq x.2 y.2 := by
  induction es generalizing P e e' ds with
  | nil =>
      cases h
      exact .pure ⟨.nil, .nil⟩
  | cons eq es ih =>
      cases h with
      | @cons _ eq' _ ds here rest =>
      rw [partitionOrientable, partitionOrientable]
      refine (orientable_glances judges quiet here).bind ?_
      rintro P₁ _ yes e₁ e₁' ext still still' rfl
      refine (ih (rest.imp fun _ _ h => h.mono ext)).bind ?_
      rintro P₂ ⟨oriented, others⟩ ⟨oriented', others'⟩ e₂ e₂' ext₂ still₂ still₂' ⟨left, right⟩
      have here := (here.mono ext).mono ext₂
      cases yes with
      | true => exact .pure ⟨.cons here left, right⟩
      | false => exact .pure ⟨left, .cons here right⟩

omit judges quiet in
/-- The worklist is sorted by text, with made-up variables as they were reserved before. -/
theorem sorted_twins {e₀ e₀' : Engine} (left : e₀.workspace.supply.reserved = P.left.reserved)
    (right : e₀'.workspace.supply.reserved = P.right.reserved) (h : List.Forall₂ P.TwinEq es ds) :
    List.Forall₂ P.TwinEq (Text.sortByText (e₀.renderPair ctx.symbols P.left.store "=") es)
      (Text.sortByText (e₀'.renderPair ctx.symbols P.right.store "=") ds) :=
  Text.sortByText_rel (fun here => renderPair_eq here left right) h

theorem sortWorklist_moves (h : Twins P e e') :
    Moves P e e' (sortWorklist ctx) (sortWorklist ctx) fun _ _ _ => True := by
  refine .working fun work work' => ?_
  have left : e.workspace.supply.reserved = P.left.reserved := congrArg (fun w => w.supply.reserved) work
  have right : e'.workspace.supply.reserved = P.right.reserved := congrArg (fun w => w.supply.reserved) work'
  rw [sortWorklist]
  refine .bindGet ?_
  rw [h.unfailing]
  cases e.config.unfailing with
  | true =>
      refine ((partitionOrientable_glances judges quiet h.equations).moves h).bind ?_
      rintro P₁ ⟨oriented, others⟩ ⟨oriented', others'⟩ e₁ e₁' ext h₁ ⟨both, both'⟩
      have left := left.trans ext.left.reserved.symm
      have right := right.trans ext.right.reserved.symm
      refine .bindStore (.modify rfl rfl ⟨{ h₁ with equations := ?_ }, trivial⟩)
      exact List.rel_append (sorted_twins left right both) (sorted_twins left right both')
  | false =>
      exact .bindStore (.modify rfl rfl ⟨{ h with equations := sorted_twins left right h.equations }, trivial⟩)

theorem addRule_moves (h : Twins P e e') (heq : P.TwinEq eq eq') (hab : P.TwinRule ab ab') :
    Moves P e e' (addRule ctx eq ab) (addRule ctx eq' ab') fun _ _ _ => True := by
  rw [addRule, addRule]
  refine .bindModify rfl rfl ?_
  have added : List.Forall₂ P.TwinRule (addNew e.rules ab) (addNew e'.rules ab') :=
    addNew_rel (TwinRule.biUnique P) hab h.rules
  refine (superpose_moves judges quiet (?_ : Twins P _ _) hab.twinEq).bind ?_
  · exact { h with rules := added }
  intro P₁ pairs pairs' e₁ e₁' ext h₁ hpairs
  refine .bindGet (.bindLift (filterSubsumed_does h₁.equations hpairs) ?_)
  intro P₂ kept kept' ext₂ hkept
  have h₂ := h₁.mono ext₂
  have hab₂ := (hab.mono ext).mono ext₂
  refine .bindModify rfl rfl (.bindGet (collapseBy_moves judges quiet ?_ hab₂ ?_))
  · exact { h₂ with
      equations := remove_rel (TwinEq.biUnique P₂) ((heq.mono ext).mono ext₂)
        (foldl_addNew_rel (TwinEq.biUnique P₂) h₂.equations hkept) }
  · exact remove_rel (TwinRule.biUnique P₂) hab₂ h₂.rules

/-- Equations that correspond, to be superposed with the same others. -/
def TwinSource (P : Parallel) (x y : Equation × Bool) : Prop := P.TwinEq x.1 y.1 ∧ y.2 = x.2

omit judges quiet in
theorem TwinSource.mono {P' : Parallel} {x y : Equation × Bool} (h : TwinSource P x y) (ext : P.Extends P') :
    TwinSource P' x y := ⟨h.1.mono ext, h.2⟩

theorem collectPairs_moves {sources sources' : List (Equation × Bool)} (h : Twins P e e')
    (hsources : List.Forall₂ (TwinSource P) sources sources') :
    Moves P e e' (collectPairs ctx sources) (collectPairs ctx sources') fun P' x y =>
      List.Forall₂ P'.TwinEq x.2 y.2 := by
  induction sources generalizing P e e' sources' with
  | nil =>
      cases hsources
      exact .pure ⟨h, .nil⟩
  | cons source sources ih =>
      cases hsources with
      | @cons _ source' _ sources' here rest =>
      obtain ⟨eq, withEquations⟩ := source
      obtain ⟨eq', _⟩ := source'
      obtain ⟨here, rfl⟩ := here
      rw [collectPairs, collectPairs]
      refine (superpose_moves judges quiet h here).bind ?_
      intro P₁ pairs pairs' e₁ e₁' ext h₁ hpairs
      refine .bindGet (.bindLift (filterSubsumed_does h₁.equations hpairs) ?_)
      intro P₂ kept kept' ext₂ hkept
      refine (ih (h₁.mono ext₂) (rest.imp fun _ _ h => (h.mono ext).mono ext₂)).bind ?_
      intro P₃ x y e₃ e₃' ext₃ h₃ more
      exact .pure ⟨h₃, List.rel_append (hkept.imp fun _ _ h => h.mono ext₃) more⟩

theorem defer_moves (h : Twins P e e') (heq : P.TwinEq eq eq') :
    Moves P e e' (defer ctx eq) (defer ctx eq') fun _ _ _ => True := by
  rw [defer, defer]
  refine .bindModify rfl rfl ?_
  have sources : List.Forall₂ (TwinSource P) [(eq, false), (eq.reversed, false), (eq, true), (eq.reversed, true)]
      [(eq', false), (eq'.reversed, false), (eq', true), (eq'.reversed, true)] :=
    .cons ⟨heq, rfl⟩ (.cons ⟨heq.reversed, rfl⟩ (.cons ⟨heq, rfl⟩ (.cons ⟨heq.reversed, rfl⟩ .nil)))
  refine Moves.bind (collectPairs_moves judges quiet ?_ sources) ?_
  · exact { h with
      equations := List.rel_append (remove_rel (TwinEq.biUnique P) heq h.equations) (.cons heq .nil) }
  · intro P₁ x y e₁ e₁' ext h₁ kept
    exact .modify rfl rfl ⟨{ h₁ with equations := foldl_addNew_rel (TwinEq.biUnique P₁) h₁.equations kept }, trivial⟩

theorem interreduce_moves (h : Twins P e e') :
    Moves P e e' (interreduce ctx) (interreduce ctx) fun _ _ _ => True := by
  rw [interreduce]
  refine (compose_moves judges quiet h).bind ?_
  rintro P₁ - - e₁ e₁' ext₁ h₁ -
  refine (simplify_moves judges quiet h₁).bind ?_
  rintro P₂ - - e₂ e₂' ext₂ h₂ -
  have finish : ∀ {P : Parallel} {e e' : Engine}, Twins P e e' → Moves P e e' (do
      let equations ← removeSubsumed [] (← get).equations
      modify fun e => { e with equations }) (do
      let equations ← removeSubsumed [] (← get).equations
      modify fun e => { e with equations }) fun _ _ _ => True := fun h =>
    .bindGet (.bindLift (removeSubsumed_does .nil h.equations) fun P' _ _ ext both =>
      .modify rfl rfl ⟨{ h.mono ext with equations := both }, trivial⟩)
  refine .bindGet ?_
  have same : e₂'.config.sortWorklist = e₂.config.sortWorklist := by rw [h₂.config]
  rw [same]
  cases e₂.config.sortWorklist with
  | true => exact (sortWorklist_moves judges quiet h₂).bind fun _ _ _ _ _ _ h₃ _ => finish h₃
  | false => exact finish h₂

theorem advanceInner_moves (h : Twins P e e') :
    Moves P e e' (advanceInner ctx) (advanceInner ctx) fun _ _ _ => True := by
  rw [advanceInner]
  refine .bindModify rfl rfl ?_
  have counted : Twins P { e with steps := e.steps + 1, metrics := e.metrics.recordStep }
      { e' with steps := e'.steps + 1, metrics := e'.metrics.recordStep } :=
    { h with steps := congrArg (· + 1) h.steps }
  refine ((pick_glances judges quiet counted).moves counted).bind ?_
  intro P₁ eq eq' e₁ e₁' ext₁ h₁ heq
  refine ((orient_glances judges quiet heq).moves h₁).bind ?_
  intro P₂ found found' e₂ e₂' ext₂ h₂ both
  have heq := heq.mono ext₂
  cases both with
  | some hab =>
      exact (addRule_moves judges quiet h₂ heq hab).bind fun _ _ _ _ _ _ h₃ _ => interreduce_moves judges quiet h₃
  | none =>
      dsimp only
      rw [heq.isTrivial_eq]
      cases eq.isTrivial with
      | true =>
          exact .modify rfl rfl ⟨{ h₂ with equations := remove_rel (TwinEq.biUnique P₂) heq h₂.equations }, trivial⟩
      | false =>
          refine .bindGet ?_
          rw [h₂.unfailing]
          cases e₂.config.unfailing with
          | true =>
              exact (defer_moves judges quiet h₂ heq).bind fun _ _ _ _ _ _ h₃ _ => interreduce_moves judges quiet h₃
          | false => exact .bindGet (.bindStore fail_mirrors)

omit judges quiet in
theorem poisonOnError_mirrors {x : EngineM α} {y : EngineM α'} {Q : Parallel → α → α' → Engine → Engine → Prop}
    (h : Mirrors P e e' x y Q) : Mirrors P e e' (poisonOnError x) (poisonOnError y) Q := by
  intro work work' a e₁ s₁ run
  rw [poisonOnError_apply] at run
  rw [poisonOnError_apply]
  rcases outcome : x e P.left.store with ⟨⟨err | a₁, e₂⟩, s₂⟩
  · rw [outcome] at run
    cases run
  rw [outcome] at run
  cases run
  rcases h work work' _ _ _ outcome with ⟨P', a', e₁', ext, left, right, rest⟩ | ⟨⟨err, failed⟩, empty⟩
  · rw [right]
    exact .inl ⟨P', a', e₁', ext, left, rfl, rest⟩
  · rw [failed]
    exact .inr ⟨⟨err, rfl⟩, empty⟩

theorem advance_moves (h : Twins P e e') : Moves P e e' (advance ctx) (advance ctx) fun _ _ _ => True :=
  poisonOnError_mirrors (advanceInner_moves judges quiet h)

end Engine
end OrderedCompletion
