import OrderedCompletion.Proofs.Calls
import OrderedCompletion.Proofs.Outcomes

/-! A step counts as one, says nothing about how the run stands, and leaves no rule or equation twice. -/

namespace OrderedCompletion

theorem addNew_nodup {es : List Equation} (h : es.Nodup) (eq : Equation) : (addNew es eq).Nodup := by
  rw [addNew]
  split
  · exact h
  · rename_i fresh
    exact List.nodup_append.2 ⟨h, List.nodup_singleton eq, fun a ha b hb => by
      rintro rfl
      exact fresh (List.mem_singleton.1 hb ▸ ha)⟩

namespace Engine

open TermM (Yields)

variable {ctx : Context} {e e' e'' : Engine} {eq ab : Equation} {α β : Type}

/-- Configuration, status and count of steps stay, and rules that differ go on to differ. -/
structure Paces (e e' : Engine) : Prop where
  config : e'.config = e.config
  status : e'.status = e.status
  steps : e'.steps = e.steps
  rules : e.rules.Nodup → e'.rules.Nodup

/-- All equations differ, and none has two equal sides. -/
structure Proper (es : List Equation) : Prop where
  nodup : es.Nodup
  proper : ∀ c ∈ es, c.isTrivial = false

theorem Proper.sublist {es fs : List Equation} (h : Proper es) (sub : fs.Sublist es) : Proper fs :=
  ⟨h.nodup.sublist sub, fun c hc => h.proper c (sub.subset hc)⟩

theorem Proper.perm {es fs : List Equation} (h : Proper es) (perm : fs.Perm es) : Proper fs :=
  ⟨perm.nodup_iff.2 h.nodup, fun c hc => h.proper c (perm.subset hc)⟩

theorem Proper.addNew {es : List Equation} (h : Proper es) (proper : eq.isTrivial = false) :
    Proper (addNew es eq) := by
  refine ⟨addNew_nodup h.nodup eq, fun c hc => ?_⟩
  rcases Superposition.mem_addNew.1 hc with hc | rfl
  · exact h.proper c hc
  · exact proper

theorem pairUp_proper {found : List Equation} {sides : List Ref} (h : Proper found) :
    Proper (pairUp found sides) := by
  induction found, sides using pairUp.induct with
  | case1 found lhs rhs rest ih =>
      rw [pairUp]
      apply ih
      split
      · exact h
      · rename_i differ
        exact h.addNew (decide_eq_false differ)
  | case2 found sides other =>
      rw [pairUp]
      · exact h
      · exact other

theorem removeSubsumed_sublist (kept rest : List Equation) (s : Store) :
    ((removeSubsumed kept rest s).1).Sublist (kept ++ rest) := by
  induction rest generalizing kept s with
  | nil =>
      rw [List.append_nil]
      exact .refl kept
  | cons eq rest ih =>
      rw [removeSubsumed]
      dsimp only [bind, StateT.bind]
      rcases ((kept ++ eq :: rest).filter (· ≠ eq)).anyM (·.subsumesEither eq) s with ⟨_ | _, s₁⟩
      · simpa using ih (kept ++ [eq]) s₁
      · exact (ih kept s₁).trans ((List.sublist_cons_self eq rest).append_left kept)

theorem Unmoved.paces (h : Unmoved e e') : Paces e e' :=
  ⟨h.config, h.status, h.steps, fun nodup => h.rules ▸ nodup⟩

theorem Paces.refl (e : Engine) : Paces e e := (Unmoved.refl e).paces

theorem Paces.trans (h : Paces e e') (h' : Paces e' e'') : Paces e e'' :=
  ⟨h'.config.trans h.config, h'.status.trans h.status, h'.steps.trans h.steps,
    fun nodup => h'.rules (h.rules nodup)⟩

/-- The action is part of a step, and what stops it is final. -/
abbrev Works (e : Engine) (x : EngineM α) (Q : α → Engine → Prop) : Prop :=
  Yields e x (fun a e' => Paces e e' ∧ Q a e') fun h e' => Paces e e' ∧ h.Final

section
variable {x : EngineM α} {f : α → EngineM β} {Q : α → Engine → Prop} {R : β → Engine → Prop}

theorem Works.since (hx : Works e' x Q) (h : Paces e e') :
    Yields e' x (fun a e'' => Paces e e'' ∧ Q a e'') fun halt e'' => Paces e e'' ∧ halt.Final :=
  Yields.mono hx (fun _ _ h' => ⟨h.trans h'.1, h'.2⟩) fun _ _ h' => ⟨h.trans h'.1, h'.2⟩

theorem Works.bind (hx : Works e x Q) (hf : ∀ a e', Q a e' → Works e' (f a) R) : Works e (x >>= f) R :=
  Yields.bind hx fun a e₁ h => (hf a e₁ h.2).since h.1

theorem Works.pure {a : α} (h : Q a e) : Works e (Pure.pure a) Q := Yields.pure ⟨.refl e, h⟩

theorem Works.modify {m : Engine → Engine} {Q : PUnit → Engine → Prop} (paces : Paces e (m e))
    (h : Q ⟨⟩ (m e)) : Works e (modify m) Q := fun _ => ⟨paces, h⟩

theorem Idles.works {P : α → Prop} (h : Idles e x P) : Works e x fun a e' => Unmoved e e' ∧ P a :=
  Yields.mono h (fun _ _ h => ⟨h.1.paces, h⟩) fun _ _ h => ⟨h.1.paces, h.2⟩

end

theorem collapseBy_works (ab : Equation) (rules : List Equation) :
    Works e (collapseBy ctx ab rules) fun _ _ => True := by
  induction rules generalizing e with
  | nil => exact .pure trivial
  | cons rule rules ih =>
      rw [collapseBy]
      refine Works.bind (Idles.works reduceWith_idles) fun lhs e₁ _ => ?_
      split
      · exact Works.bind (.modify (Q := fun _ _ => True)
          ⟨rfl, rfl, rfl, fun nodup => nodup.filter _⟩ trivial) fun _ e₂ _ => ih
      · exact ih

/-- The rule that is composed takes the place of the one that it was. -/
theorem composed_nodup {before after : List Equation} {old rule : Equation}
    (h : (before ++ old :: after).Nodup) :
    (if rule ∈ before ++ after then before ++ after else before ++ rule :: after).Nodup := by
  have rest : (before ++ after).Nodup := h.sublist ((List.sublist_cons_self old after).append_left before)
  split
  · exact rest
  · rename_i fresh
    exact List.nodup_middle.2 (List.nodup_cons.2 ⟨fresh, rest⟩)

theorem compose_works (n : Nat) :
    Works e (compose ctx n) fun _ e' => e'.equations = e.equations := by
  induction n generalizing e with
  | zero => exact Yields.throw ⟨.refl e, nofun⟩
  | succ n ih =>
      rw [compose]
      refine .bindGet (Works.bind (findComposable_idles [] e.rules).works ?_)
      rintro found e₁ ⟨unmoved, composable⟩
      split
      · exact .pure unmoved.equations
      · rename_i before rule after
        obtain ⟨old, split, -⟩ := composable before rule after rfl
        rw [List.nil_append] at split
        refine Works.bind (.modify (Q := fun _ e₂ => e₂.equations = e₁.equations)
          ⟨rfl, rfl, rfl, fun nodup => ?_⟩ rfl) fun _ e₂ same => ?_
        · rw [unmoved.rules, split] at nodup
          exact composed_nodup nodup
        · exact Yields.mono ih (fun _ _ h => ⟨h.1, h.2.trans (same.trans unmoved.equations)⟩) fun _ _ h => h

theorem simplify_works : Works e (simplify ctx) fun _ e' => Proper e'.equations := by
  rw [simplify]
  refine .bindGet (Works.bind (Idles.works reduceWith_idles) fun sides e₁ _ => ?_)
  exact .modify ⟨rfl, rfl, rfl, id⟩ (pairUp_proper ⟨.nil, by simp⟩)

theorem sortWorklist_works : Works e (sortWorklist ctx) fun _ e' => e'.equations.Perm e.equations := by
  rw [sortWorklist]
  refine .bindGet ?_
  split
  · refine Works.bind (partitionOrientable_idles e.equations).works ?_
    rintro ⟨oriented, others⟩ e₁ ⟨-, parts⟩
    refine .bindStore fun s => Works.modify ⟨rfl, rfl, rfl, id⟩ ?_
    exact ((Text.sortByText_perm _ _).append (Text.sortByText_perm _ _)).trans parts
  · exact .bindStore fun s => Works.modify ⟨rfl, rfl, rfl, id⟩ (Text.sortByText_perm _ _)

theorem tidy_works (h : Proper e.equations) :
    Works e (do
      let equations ← removeSubsumed [] (← get).equations
      modify fun e => { e with equations }) fun _ e' => Proper e'.equations := by
  intro s
  exact ⟨⟨rfl, rfl, rfl, id⟩, h.sublist (removeSubsumed_sublist [] e.equations s)⟩

theorem interreduce_works : Works e (interreduce ctx) fun _ e' => Proper e'.equations := by
  rw [interreduce]
  refine Works.bind (compose_works ctx.fuel) fun _ e₁ _ => Works.bind simplify_works fun _ e₂ proper => ?_
  refine .bindGet ?_
  split
  · exact Works.bind sortWorklist_works fun _ e₃ perm => tidy_works (proper.perm perm)
  · exact tidy_works proper

theorem addRule_works (eq ab : Equation) : Works e (addRule ctx eq ab) fun _ _ => True := by
  rw [addRule]
  refine Works.bind (.modify (Q := fun _ _ => True) ⟨rfl, rfl, rfl, fun nodup => addNew_nodup nodup ab⟩
    trivial) fun _ e₁ _ => Works.bind (superpose_idles ab false).works fun pairs e₂ _ => ?_
  refine .bindGet (.bindLift fun kept => Works.bind (.modify (Q := fun _ _ => True)
    ⟨rfl, rfl, rfl, id⟩ trivial) fun _ e₃ _ => .bindGet (collapseBy_works ab _))

theorem filterSubsumed_length_le (worklist candidates : List Equation) (s : Store) :
    (filterSubsumed worklist candidates s).1.length ≤ candidates.length := by
  suffices gen : ∀ (p : Equation → StoreM Bool) (acc : List Equation) (s : Store),
      (candidates.filterAuxM p acc s).1.length ≤ acc.length + candidates.length by
    have all := gen (fun c => return !(← worklist.anyM (·.subsumes c))) [] s
    rw [List.length_nil, Nat.zero_add] at all
    rw [filterSubsumed, List.filterM]
    exact List.length_reverse.trans_le all
  intro p
  induction candidates with
  | nil => exact fun _ _ => le_rfl
  | cons c cs ih =>
      intro acc s
      rw [List.filterAuxM]
      refine (ih (cond (p c s).1 (c :: acc) acc) (p c s).2).trans ?_
      cases (p c s).1 with
      | true => exact (Nat.succ_add acc.length cs.length).le
      | false => exact Nat.add_le_add_left (Nat.le_succ _) _

/-- No more pairs are kept than are made. -/
theorem collectPairs_idles (sources : List (Equation × Bool)) :
    Idles e (collectPairs ctx sources) fun out => out.2.length ≤ out.1 := by
  induction sources generalizing e with
  | nil => exact .pure le_rfl
  | cons source sources ih =>
      refine (superpose_idles _ _).bind fun pairs e₁ _ => .bindGet ?_
      refine .bindLiftOf (P := fun kept => kept.length ≤ pairs.length) (filterSubsumed_length_le _ pairs) ?_
      refine fun kept few => Idles.bind ih fun more e₂ fewer => .pure ?_
      exact List.length_append.trans_le (Nat.add_le_add few fewer)

theorem defer_works (eq : Equation) : Works e (defer ctx eq) fun _ _ => True := by
  rw [defer]
  refine Works.bind (.modify (Q := fun _ _ => True) ⟨rfl, rfl, rfl, id⟩ trivial) fun _ e₁ _ => ?_
  exact Works.bind (collectPairs_idles _).works fun out e₂ _ => .modify ⟨rfl, rfl, rfl, id⟩ trivial

/-- What a step makes of a run: it counts, and leaves no rule or equation twice. -/
structure Counts (e e' : Engine) : Prop where
  config : e'.config = e.config
  status : e'.status = e.status
  steps : e'.steps = e.steps + 1
  rules : e.rules.Nodup → e'.rules.Nodup

theorem Paces.counts (h : Paces { e with steps := e.steps + 1, metrics := e.metrics.recordStep } e') :
    Counts e e' :=
  ⟨h.config, h.status, h.steps, h.rules⟩

theorem advanceInner_yields : Yields e (advanceInner ctx)
    (fun _ e' => Counts e e' ∧ (Proper e.equations → Proper e'.equations))
    fun h e' => Counts e e' ∧ h.Final := by
  rw [advanceInner]
  refine .bindModify ?_
  suffices rest : Works { e with steps := e.steps + 1, metrics := e.metrics.recordStep } _
      fun _ e' => Proper e.equations → Proper e'.equations from
    Yields.mono rest (fun _ _ h => ⟨h.1.counts, h.2⟩) fun _ _ h => ⟨h.1.counts, h.2⟩
  refine Works.bind pick_idles.works ?_
  rintro eq e₁ ⟨unmoved₁, mem⟩
  refine Works.bind (orient_idles eq).works ?_
  rintro direction e₂ ⟨unmoved₂, -⟩
  have same : e₂.equations = e.equations := unmoved₂.equations.trans unmoved₁.equations
  have proper : ∀ {e₃}, Works e₃ (interreduce ctx) fun _ e' => Proper e.equations → Proper e'.equations :=
    Yields.mono interreduce_works (fun _ _ h => ⟨h.1, fun _ => h.2⟩) fun _ _ h => h
  split
  · exact Works.bind (addRule_works eq _) fun _ e₃ _ => proper
  · split
    · exact .modify ⟨rfl, rfl, rfl, id⟩ fun h => (same.symm ▸ h).sublist List.filter_sublist
    · refine .bindGet ?_
      have deferred : ∀ {e₃}, Works e₃ (do defer ctx eq; interreduce ctx) fun _ e' =>
          Proper e.equations → Proper e'.equations :=
        Works.bind (defer_works eq) fun _ e₄ _ => proper
      split
      · refine .bindGet (.bindStore fun s => Works.bind (Q := fun _ _ => True) ?_ fun _ e₃ _ => deferred)
        exact Yields.mono (fail_idles (Q := fun _ => True) rfl) (fun _ _ h => ⟨h.1.paces, h.2⟩)
          fun _ _ h => ⟨h.1.paces, h.2⟩
      · exact deferred

theorem poisonOnError_yields {x : EngineM α} {Q : α → Engine → Prop} {F F' : Halt → Engine → Prop}
    (hx : Yields e x Q F) (err : ∀ h e', F h e' → F' h { e' with status := .failed }) :
    Yields e (poisonOnError x) Q F' := by
  intro s
  have h := hx s
  rw [poisonOnError_apply]
  cases outcome : (x e s).1.1 with
  | ok a =>
      rw [outcome] at h
      exact h
  | error halt =>
      rw [outcome] at h
      exact err _ _ h

end Engine
end OrderedCompletion
