import OrderedCompletion.Proofs.Interreduction

/-! A step of completion says nothing new, loses nothing, and leaves all overlaps of rules connected. -/

namespace OrderedCompletion.Engine

variable {G : Gauge} {ctx : Context} {e e' : Engine} {s s' : Store} {eq ab : Equation}
variable {a b : Term}

theorem findOrientable_spec {es : List Equation} (obeys : ctx.order.Obeys G) (wf : s.WellFormed)
    (has : s.HasAll G.sig es) :
    Leaves e s (findOrientable ctx es) fun out _ => ∀ d, out = some d → d ∈ es := by
  induction es generalizing e s with
  | nil => exact .pure wf fun d h => by cases h
  | cons d es ih =>
      rw [findOrientable]
      refine (orientable_spec obeys wf (has d List.mem_cons_self)).bind fun yes e₁ s₁ wf₁ le₁ _ => ?_
      split
      · refine .pure wf₁ fun c hc => ?_
        cases hc
        exact List.mem_cons_self
      · have rest := (has.of_subset (List.subset_cons_self d es)).mono wf wf₁ le₁
        exact (ih wf₁ rest).mono fun out s₂ _ _ h c hc => List.mem_cons_of_mem _ (h c hc)

theorem pick_spec (obeys : ctx.order.Obeys G) (wf : s.WellFormed) (fine : Fine G s e) :
    Leaves e s (pick ctx) fun eq _ => eq ∈ e.equations := by
  rw [pick]
  refine .bindGet ?_
  refine (findOrientable_spec obeys wf fine.equations).bind fun out e₁ s₁ wf₁ le₁ h => ?_
  split
  · exact .pure wf₁ (h _ rfl)
  · split
    · rename_i d rest same
      exact .pure wf₁ (same ▸ List.mem_cons_self)
    · exact fail_spec wf₁ (.refl e₁)

/-- The rule is the equation read in a direction in which it goes down. -/
structure Directs (G : Gauge) (s : Store) (eq ab : Equation) : Prop where
  same : ab = eq ∨ ab = eq.reversed
  down : ∃ a b, s.Means ab (a, b) ∧ a.Over G.sig ∧ b.Over G.sig ∧ G.gt a b

theorem orient_spec (obeys : ctx.order.Obeys G) (wf : s.WellFormed) (has : s.Has G.sig eq) :
    Leaves e s (orient ctx eq) fun out s' => (∀ ab, out = some ab → Directs G s' eq ab) ∧
      (out = none → G.strict → ∀ l r, s'.Means eq (l, r) → ¬ G.gt l r ∧ ¬ G.gt r l) := by
  obtain ⟨l, r, means, hl, hr⟩ := has
  rw [orient]
  refine (ask_spec obeys wf means.1 means.2 hl hr).bind fun yes e₁ s₁ wf₁ le₁ h₁ => ?_
  have means₁ := Equation.means_mono means wf wf₁ le₁
  split
  · rename_i straight
    refine .pure wf₁ ⟨fun ab same => ?_, fun none => by cases none⟩
    cases same
    exact ⟨.inl rfl, l, r, means₁, hl, hr, h₁.1 straight⟩
  · rename_i notStraight
    refine (ask_spec obeys wf₁ means₁.2 means₁.1 hr hl).bind fun yes e₂ s₂ wf₂ le₂ h₂ => ?_
    have means₂ := Equation.means_mono means₁ wf₁ wf₂ le₂
    split
    · rename_i turned
      refine .pure wf₂ ⟨fun ab same => ?_, fun none => by cases none⟩
      cases same
      exact ⟨.inr rfl, r, l, Equation.means_reversed means₂, hr, hl, h₂.1 turned⟩
    · rename_i notTurned
      refine .pure wf₂ ⟨fun ab same => (by cases same), fun _ strict l' r' means' => ?_⟩
      obtain rfl := means₂.1.unique means'.1
      obtain rfl := means₂.2.unique means'.2
      exact ⟨h₁.2 strict (eq_false_of_ne_true notStraight), h₂.2 strict (eq_false_of_ne_true notTurned)⟩

/-- What a superposition brings once subsumed pairs are left out: the pairs kept follow, and with them
whatever has been seen since is connected. -/
structure Gains (G : Gauge) (s : Store) (e : Engine) (s' : Store) (e' : Engine)
    (donors : List (Equation × Equation)) (kept : List Equation) : Prop where
  beside : Beside e e'
  overlaps : ∀ c ∈ kept, ∃ d ∈ donors, Superposer.Overlaps G s' d c
  follows : ∀ c ∈ kept, Superposition.Follows G s' (e.theory s) c
  seen : ∀ d ∈ donors, e'.seen.contains d = true
  old : ∀ d, e.seen.contains d = true → e'.seen.contains d = true
  connects : G.Sharp → ∀ d, e'.seen.contains d = true → e.seen.contains d = true ∨
    ∀ T, G.Covers (s'.theory e.equations) T → G.Covers (s'.theory kept) T → Connected G s' T d

/-- A subsumed equation is bridged by what bridges the others. -/
theorem Subsumed.bridges {es : List Equation} {c : Equation} {T : Theory} {x y : Term}
    (h : Subsumed s es c) (cover : G.Covers (s.theory es) T) (means : s.Means c (x, y))
    (hx : x.Over G.sig) (hy : y.Over G.sig) : G.Bridges T x y := by
  obtain ⟨d, hd, l, r, θ, means', meansC⟩ := h
  obtain rfl := meansC.1.unique means.1
  obtain rfl := meansC.2.unique means.2
  exact (cover l r (Store.mem_theory hd means')).of_instance hx hy

theorem hasAll_of_follows {T : Theory} {es : List Equation}
    (h : ∀ c ∈ es, Superposition.Follows G s T c) : s.HasAll G.sig es := by
  intro c hc
  obtain ⟨x, y, means, hx, hy, -⟩ := h c hc
  exact ⟨x, y, means, hx, hy⟩

/-- What covers the equations that subsume, and those that nothing subsumes, covers all. -/
theorem covers_of_subsumed {es all left : List Equation} {T : Theory} (has : s.HasAll G.sig all)
    (mem : ∀ c, c ∈ left ↔ c ∈ all ∧ ¬ Subsumed s es c) (old : G.Covers (s.theory es) T)
    (new : G.Covers (s.theory left) T) : G.Covers (s.theory all) T := by
  intro x y hx
  obtain ⟨c, hc, means, hx', hy'⟩ := has.exists_means hx
  by_cases subsumed : Subsumed s es c
  · exact subsumed.bridges old means hx' hy'
  · exact new x y (Store.mem_theory ((mem c).2 ⟨hc, subsumed⟩) means)

theorem gains_of_yields {withEquations : Bool} {pairs kept : List Equation} {s₁ s₂ : Store}
    {e₁ : Engine} (fine : Fine G s e) (beside : Beside e e₁)
    (yields : Superposer.Yields G e.superposer e₁.superposer s₁ (e.theory s) (e.donors eq withEquations)
      pairs) (wf₁ : s₁.WellFormed) (wf₂ : s₂.WellFormed) (le₂ : s₁ ≤ s₂) (same : Store.SameTerms s₁ s₂)
    (mem : ∀ c, c ∈ kept ↔ c ∈ pairs ∧ ¬ Subsumed s₁ e₁.equations c) :
    Gains G s e s₂ e₁ (e.donors eq withEquations) kept where
  beside := beside
  overlaps := by
    intro c hc
    obtain ⟨d, hd, overlaps⟩ := yields.overlaps c ((mem c).1 hc).1
    exact ⟨d, hd, overlaps.mono wf₁ wf₂ le₂⟩
  follows := fun c hc => (yields.follows c ((mem c).1 hc).1).mono wf₁ wf₂ le₂
  seen := yields.seen
  old := yields.old
  connects := by
    intro sharp d hd
    refine (yields.connects sharp.1 (fine.distinct sharp.2) d hd).imp_right fun connected T old new => ?_
    refine (connected T ?_).mono wf₁ wf₂ le₂
    rw [same.theory] at old new
    rw [← beside.equations] at old
    exact covers_of_subsumed (hasAll_of_follows yields.follows) mem old new

theorem Follows.reversed {T : Theory} (h : Superposition.Follows G s T eq) :
    Superposition.Follows G s T eq.reversed := by
  obtain ⟨x, y, means, hx, hy, derives⟩ := h
  exact ⟨y, x, Equation.means_reversed means, hy, hx, derives.symm⟩

/-- What follows from equations and rules may be superposed with them. -/
theorem Fine.donates {withEquations : Bool} (fine : Fine G s e)
    (follows : Superposition.Follows G s (e.theory s) eq) :
    ∀ d ∈ e.donors eq withEquations, Superposer.Donates G s (e.theory s) d :=
  forall_donors follows (fun _ => fine.follows_rule) fun _ => ⟨Follows.reversed follows, fun _ hd =>
    ⟨fine.follows_equation hd, Follows.reversed (fine.follows_equation hd)⟩⟩

/-- The state of a run in which an equation has become a rule, before its pairs are known. -/
def withRule (e : Engine) (ab : Equation) : Engine :=
  { e with metrics := e.metrics.recordRuleAdded, rules := addNew e.rules ab }

theorem withRule_evolves (fine : Fine G s e) (heq : eq ∈ e.equations) (directs : Directs G s eq ab) :
    Evolves G s e s (e.withRule ab) := by
  obtain ⟨same, a, b, means, ha, hb, down⟩ := directs
  have more : e.rules ⊆ addNew e.rules ab := fun d hd => Superposition.mem_addNew.2 (.inl hd)
  have derives : Derives (e.theory s) a b := by
    rcases same with rfl | rfl
    · exact .of_mem (.inl (Store.mem_theory heq means))
    · exact .symm (.of_mem (.inl (Store.mem_theory heq (Equation.means_reversed means))))
  refine ⟨⟨fine.equations, fun d hd => ?_, ?_, fine.distinct⟩, ?_, ?_, rfl, rfl⟩
  · rcases Superposition.mem_addNew.1 hd with hd | rfl
    · exact fine.rules d hd
    · exact ⟨a, b, means, ha, hb⟩
  · rintro x y ⟨d, hd, eq'⟩
    rcases Superposition.mem_addNew.1 hd with hd | rfl
    · exact fine.descends x y ⟨d, hd, eq'⟩
    · rw [means.1.2, means.2.2] at eq'
      obtain ⟨rfl, rfl⟩ := Prod.mk.inj eq'
      exact ⟨ha, hb, down⟩
  · rintro x y (hx | ⟨d, hd, eq'⟩)
    · exact .of_mem (.inl hx)
    · rcases Superposition.mem_addNew.1 hd with hd | rfl
      · exact .of_mem (.inr ⟨d, hd, eq'⟩)
      · rw [means.1.2, means.2.2] at eq'
        obtain ⟨rfl, rfl⟩ := Prod.mk.inj eq'
        exact derives
  · rintro x y (hx | hx)
    · obtain ⟨hx', hy'⟩ := fine.equations.fits x y hx
      exact .of_mem (.inl hx) hx' hy'
    · obtain ⟨hx', hy'⟩ := fine.rules.fits x y hx
      exact .of_mem (.inr (Store.theory_mono more hx)) hx' hy'

/-- A worklist with the pairs kept. -/
def withPairs (e : Engine) (kept : List Equation) : Engine :=
  { e with equations := kept.foldl addNew e.equations }

/-- Whatever has been seen is connected. -/
def SeenConnected (G : Gauge) (s : Store) (e : Engine) : Prop :=
  ∀ d, e.seen.contains d = true → Connected G s (e.theory s) d

section
variable {donors : List (Equation × Equation)} {kept : List Equation}

theorem Gains.evolves (h : Gains G s e s' e' donors kept) (wf : s.WellFormed) (wf' : s'.WellFormed)
    (le : s ≤ s') (fine : Fine G s e) : Evolves G s e s' (e'.withPairs kept) := by
  have fine' := fine.mono wf wf' le
  have unchanged := fine.theory_eq wf wf' le
  have equations : (e'.withPairs kept).equations = kept.foldl addNew e.equations := by
    rw [withPairs, h.beside.equations]
  have rules : (e'.withPairs kept).rules = e.rules := h.beside.rules
  have theory : (e'.withPairs kept).theory s' =
      s'.theory (kept.foldl addNew e.equations) ∪ s'.theory e.rules := by
    rw [Engine.theory, equations, rules]
  refine ⟨⟨fun d hd => ?_, ?_, ?_, fun distinct => ?_⟩, ?_, ?_, h.beside.config, h.beside.status⟩
  · rw [equations] at hd
    rcases Superposition.mem_foldl_addNew.1 hd with hd | hd
    · exact fine'.equations d hd
    · exact hasAll_of_follows h.follows d hd
  · rw [rules]
    exact fine'.rules
  · rw [rules]
    exact fine'.descends
  · exact h.beside.later.distinct (fine.distinct distinct)
  · rw [theory, ← unchanged]
    rintro x y (⟨d, hd, eq'⟩ | hx)
    · rcases Superposition.mem_foldl_addNew.1 hd with hd | hd
      · exact .of_mem (.inl ⟨d, hd, eq'⟩)
      · obtain ⟨x', y', meansD, -, -, derives⟩ := h.follows d hd
        rw [meansD.1.2, meansD.2.2] at eq'
        obtain ⟨rfl, rfl⟩ := Prod.mk.inj eq'
        rwa [unchanged]
    · exact .of_mem (.inr hx)
  · rw [theory, ← unchanged]
    refine .of_subset fine'.fits (Set.union_subset_union_left _ (Store.theory_mono ?_))
    exact fun d hd => Superposition.mem_foldl_addNew.2 (.inl hd)

/-- With the pairs in the worklist, what has been seen since is connected as well. -/
theorem Gains.seenConnected (h : Gains G s e s' e' donors kept) (wf : s.WellFormed)
    (wf' : s'.WellFormed) (le : s ≤ s') (fine : Fine G s e) (sharp : G.Sharp)
    (before : SeenConnected G s e) : SeenConnected G s' (e'.withPairs kept) := by
  intro d hd
  rcases h.connects sharp d hd with old | connected
  · exact ((before d old).mono wf wf' le).cover (h.evolves wf wf' le fine).covers
  · have mem : ∀ {c}, c ∈ e.equations ∨ c ∈ kept → c ∈ (e'.withPairs kept).equations := by
      intro c hc
      rw [withPairs, h.beside.equations]
      exact Superposition.mem_foldl_addNew.2 hc
    refine connected _ (.of_subset (fine.mono wf wf' le).equations.fits ?_)
      (.of_subset (hasAll_of_follows h.follows).fits ?_)
    · exact fun c hc => .inl (Store.theory_mono (fun c hc => mem (.inl hc)) hc)
    · exact fun c hc => .inl (Store.theory_mono (fun c hc => mem (.inr hc)) hc)

/-- Besides, no new rule came. -/
theorem Gains.advances {e₃ : Engine} (h : Gains G s e s' e' donors kept) (wf : s.WellFormed)
    (wf' : s'.WellFormed) (le : s ≤ s') (fine : Fine G s e) (beside : Beside (e'.withPairs kept) e₃)
    (seen : e₃.seen = e'.seen) : Advances G s e s' e₃ := by
  have ev := h.evolves wf wf' le fine
  refine Advances.trans ⟨ev, fun peaks sharp d hd => ?_⟩
    (Aside.advances ⟨beside, seen⟩ ev.fine wf' wf' (le_refl s')) fine
  rcases hd with hd | hd
  · have rules : (e'.withPairs kept).rules = e.rules := h.beside.rules
    rw [rules] at hd
    exact ((peaks sharp d (.inl hd)).mono wf wf' le).cover ev.covers
  · exact h.seenConnected wf wf' le fine sharp (fun d hd => peaks sharp d (.inr hd)) d hd

end

/-- The worklist gains the pairs of the new rule, whose overlaps are then connected. -/
theorem addRule_advances {kept : List Equation} (wf : s.WellFormed) (wf' : s'.WellFormed) (le : s ≤ s')
    (fine : Fine G s e) (heq : eq ∈ e.equations) (directs : Directs G s eq ab)
    (gains : Gains G s (e.withRule ab) s' e' ((e.withRule ab).donors ab false) kept) :
    Advances G s e s' (e'.withPairs kept) := by
  have ev := withRule_evolves fine heq directs
  have ev' := gains.evolves wf wf' le ev.fine
  have all := ev.trans ev' fine
  refine ⟨all, fun peaks sharp d hd => ?_⟩
  have seen : SeenConnected G s' (e'.withPairs kept) :=
    gains.seenConnected wf wf' le ev.fine sharp fun d hd =>
      (peaks sharp d (.inr hd)).cover ev.covers
  rcases hd with ⟨hx, hy⟩ | hd
  · obtain ⟨x, y⟩ := d
    have rules : (e'.withPairs kept).rules = addNew e.rules ab := gains.beside.rules
    rw [rules] at hx hy
    have donated : ∀ z ∈ addNew e.rules ab,
        e'.seen.contains (ab, z) = true ∧ e'.seen.contains (z, ab) = true :=
      fun z hz => ⟨gains.seen _ (List.mem_flatMap.2 ⟨z, hz, by simp⟩),
        gains.seen _ (List.mem_flatMap.2 ⟨z, hz, by simp⟩)⟩
    rcases Superposition.mem_addNew.1 hx with hx' | rfl
    · rcases Superposition.mem_addNew.1 hy with hy' | rfl
      · exact ((peaks sharp _ (.inl ⟨hx', hy'⟩)).mono wf wf' le).cover all.covers
      · exact seen _ (donated x hx).2
    · exact seen _ (donated y hy).1
  · exact seen d hd

/-- An equation may be dropped if the others, with the rules, bridge its sides. -/
theorem drop_advances (wf : s.WellFormed) (fine : Fine G s e)
    (beside : Beside { e with equations := remove e.equations eq } e') (seen : e'.seen = e.seen)
    (bridged : ∀ x y, s.Means eq (x, y) →
      G.Bridges (s.theory (remove e.equations eq) ∪ s.theory e.rules) x y) : Advances G s e s e' := by
  have fewer : remove e.equations eq ⊆ e.equations := fun d hd => (mem_remove.1 hd).1
  refine worklist_advances wf fine beside seen (fine.equations.of_subset fewer) ?_ ?_
  · exact fun x y hx => .of_mem (.inl (Store.theory_mono fewer hx))
  · intro x y hx
    obtain ⟨d, hd, meansD, hx', hy'⟩ := fine.equations.exists_means hx
    by_cases isEq : d = eq
    · exact bridged x y (isEq ▸ meansD)
    · exact .of_mem (.inl (Store.mem_theory (mem_remove.2 ⟨hd, isEq⟩) meansD)) hx' hy'

/-- An equation that is a rule by now is dropped. -/
theorem dropOriented_advances (wf : s.WellFormed) (fine : Fine G s e) (directs : Directs G s eq ab)
    (rule : ab ∈ e.rules) (beside : Beside { e with equations := remove e.equations eq } e')
    (seen : e'.seen = e.seen) : Advances G s e s e' := by
  obtain ⟨same, a, b, means, ha, hb, down⟩ := directs
  refine drop_advances wf fine beside seen fun x y meansEq => ?_
  have bridges : G.Bridges (s.theory (remove e.equations eq) ∪ s.theory e.rules) a b :=
    .of_mem (.inr (Store.mem_theory rule means)) ha hb
  rcases same with rfl | rfl
  · obtain rfl := means.1.unique meansEq.1
    obtain rfl := means.2.unique meansEq.2
    exact bridges
  · obtain rfl := means.2.unique meansEq.1
    obtain rfl := means.1.unique meansEq.2
    exact bridges.symm

theorem Directs.mono (h : Directs G s eq ab) (wf : s.WellFormed) (wf' : s'.WellFormed) (le : s ≤ s') :
    Directs G s' eq ab := by
  obtain ⟨same, a, b, means, inSig⟩ := h
  exact ⟨same, a, b, Equation.means_mono means wf wf' le, inSig⟩

/-- What a superposition with a new rule brings, and the collapse by it. -/
theorem Gains.adds {kept : List Equation} {e₂ e₃ e₄ : Engine} {s₃ s₄ : Store}
    (gains : Gains G s (e.withRule ab) s₃ e₂ ((e.withRule ab).donors ab false) kept)
    (collapses : Collapses G ab (e₃.rules.filter (· ≠ ab)) e₃ s₄ e₄) (wf₃ : s₃.WellFormed)
    (wf₄ : s₄.WellFormed) (le₄ : s₃ ≤ s₄) (rules : e₃.rules = e₂.rules)
    (equations : e₃.equations = remove (kept.foldl addNew e₂.equations) eq) :
    Adds G eq ab e s₄ e₄ := by
  have same : e₃.rules = addNew e.rules ab := rules.trans gains.beside.rules
  have worklist : e₂.equations = e.equations := gains.beside.equations
  refine ⟨same ▸ collapses.rules, fun strict rule stays apart => ?_, ?_⟩
  · refine collapses.avoids strict rule (List.mem_filter.2 ⟨?_, decide_eq_true apart⟩) stays
    exact collapses.rules.subset stays
  · obtain ⟨front, split, origin⟩ := collapses.equations
    refine ⟨front, kept, by rw [split, equations, worklist], fun c hc => ?_, fun c hc => ?_⟩
    · obtain ⟨rule, looked, rest⟩ := origin c hc
      obtain ⟨mem, apart⟩ := List.mem_filter.1 looked
      rw [same] at mem
      exact ⟨rule, (Superposition.mem_addNew.1 mem).resolve_right (of_decide_eq_true apart), rest⟩
    · obtain ⟨d, hd, overlaps⟩ := gains.overlaps c hc
      exact ⟨d, hd, overlaps.mono wf₃ wf₄ le₄⟩

theorem addRule_spec (obeys : ctx.order.Obeys G) (wf : s.WellFormed) (fine : Fine G s e)
    (heq : eq ∈ e.equations) (directs : Directs G s eq ab) :
    Advancing G e s (addRule ctx eq ab) fun _ e' s' => Adds G eq ab e s' e' := by
  rw [addRule]
  refine .bindModify ?_
  have ev := withRule_evolves fine heq directs
  have isRule : ab ∈ (e.withRule ab).rules := Superposition.mem_addNew.2 (.inr rfl)
  refine TermM.Ensures.bind ((superpose_spec (e := e.withRule ab) obeys wf
    (ev.fine.donates (ev.fine.follows_rule isRule))).mono
    (fun _ _ _ _ _ h => h) fun e' s' wf' le' h => ev.trans (h.evolves ev.fine wf wf' le') fine) ?_
  rintro pairs e₂ s₂ wf₂ le₂ ⟨beside, yields⟩
  refine .bindGet ?_
  have has₂ : s₂.HasAll G.sig e₂.equations :=
    (beside.evolves ev.fine wf wf₂ le₂).fine.equations
  refine .bindLift (filterSubsumed_spec wf₂ has₂ (hasAll_of_follows yields.follows)) ?_
  rintro kept s₃ wf₃ le₃ ⟨same, mem⟩
  have gains := gains_of_yields ev.fine beside yields wf₂ wf₃ le₃ same mem
  refine .bindModify (.bindGet ?_)
  have self : ab ∈ e₂.rules := beside.rules ▸ isRule
  have le := le₂.trans le₃
  have added := addRule_advances wf wf₃ le fine heq directs gains
  have adv : Advances G s e s₃ { e₂ with
      metrics := e₂.metrics.recordCriticalPairs pairs.length kept.length
      equations := remove (kept.foldl addNew e₂.equations) eq } :=
    added.trans (dropOriented_advances wf₃ added.fine (directs.mono wf wf₃ le) self
      ⟨rfl, rfl, rfl, rfl, .refl _⟩ rfl) fine
  refine (collapseBy_spec obeys wf₃ adv.fine self (fun rule h => ?_) fun rule h => ?_).mono
    (fun _ e₄ s₄ wf₄ le₄ h => ⟨adv.trans h.1 fine, ?_⟩) fun _ _ _ _ h => adv.toEvolves.trans h fine
  · exact of_decide_eq_true (List.mem_filter.1 h).2
  · exact adv.fine.follows_rule (List.mem_filter.1 h).1
  · exact gains.adds h.2 wf₃ wf₄ le₄ rfl rfl

/-- The pairs of donors of a list of superpositions. -/
def allDonors (e : Engine) (sources : List (Equation × Bool)) : List (Equation × Equation) :=
  sources.flatMap fun source => e.donors source.1 source.2

theorem donors_of_beside (h : Beside e e') (eq : Equation) (withEquations : Bool) :
    e'.donors eq withEquations = e.donors eq withEquations := by
  rw [donors, donors, h.equations, h.rules]

/-- One superposition after another one, with other donors. -/
theorem Gains.trans {s₁ s₂ : Store} {e₁ e₂ : Engine} {donors donors' : List (Equation × Equation)}
    {kept more : List Equation} (h : Gains G s e s₁ e₁ donors kept) (h' : Gains G s₁ e₁ s₂ e₂ donors' more)
    (fine : Fine G s e) (wf : s.WellFormed) (wf₁ : s₁.WellFormed) (wf₂ : s₂.WellFormed) (le₁ : s ≤ s₁)
    (le₂ : s₁ ≤ s₂) : Gains G s e s₂ e₂ (donors ++ donors') (kept ++ more) where
  beside := h.beside.trans h'.beside
  overlaps := fun c hc => by
    rcases List.mem_append.1 hc with hc | hc
    · obtain ⟨d, hd, overlaps⟩ := h.overlaps c hc
      exact ⟨d, List.mem_append_left _ hd, overlaps.mono wf₁ wf₂ le₂⟩
    · obtain ⟨d, hd, overlaps⟩ := h'.overlaps c hc
      exact ⟨d, List.mem_append_right _ hd, overlaps⟩
  follows := fun c hc => by
    rcases List.mem_append.1 hc with hc | hc
    · exact (h.follows c hc).mono wf₁ wf₂ le₂
    · have follows := h'.follows c hc
      rwa [h.beside.theory_eq fine wf wf₁ le₁] at follows
  seen := fun d hd => by
    rcases List.mem_append.1 hd with hd | hd
    · exact h'.old d (h.seen d hd)
    · exact h'.seen d hd
  old := fun d hd => h'.old d (h.old d hd)
  connects := fun sharp d hd => by
    rcases h'.connects sharp d hd with hd | connected
    · refine (h.connects sharp d hd).imp_right fun connected T old new => ?_
      have hasKept := hasAll_of_follows h.follows
      refine (connected T ?_ fun x y hx => new x y ?_).mono wf₁ wf₂ le₂
      · rwa [← (fine.mono wf wf₁ le₁).equations.theory_eq wf₁ wf₂ le₂]
      · rw [← hasKept.theory_eq wf₁ wf₂ le₂] at hx
        exact Store.theory_mono (List.subset_append_left _ _) hx
    · refine .inr fun T old new => connected T (h.beside.equations ▸ old) fun x y hx => new x y ?_
      exact Store.theory_mono (List.subset_append_right _ _) hx

theorem collectPairs_spec {sources : List (Equation × Bool)} (obeys : ctx.order.Obeys G)
    (wf : s.WellFormed) (fine : Fine G s e)
    (follows : ∀ source ∈ sources, Superposition.Follows G s (e.theory s) source.1) :
    TermM.Ensures e s (collectPairs ctx sources)
      (fun out e' s' => Gains G s e s' e' (e.allDonors sources) out.2) fun e' _ => Beside e e' := by
  induction sources generalizing e s with
  | nil =>
      refine .pure wf ⟨.refl e, fun c hc => ?_, fun c hc => ?_, fun d hd => ?_, fun _ hd => hd,
        fun _ d hd => .inl hd⟩
      · cases hc
      · cases hc
      · cases hd
  | cons source sources ih =>
      obtain ⟨eq, withEquations⟩ := source
      rw [collectPairs]
      refine ((superpose_spec obeys wf (fine.donates (follows _ List.mem_cons_self))).bind ?_)
      rintro pairs e₁ s₁ wf₁ le₁ ⟨beside, yields⟩
      have ev := beside.evolves fine wf wf₁ le₁
      refine .bindGet ?_
      refine .bindLift (filterSubsumed_spec wf₁ ev.fine.equations (hasAll_of_follows yields.follows)) ?_
      rintro kept s₂ wf₂ le₂ ⟨same, mem⟩
      have gains := gains_of_yields fine beside yields wf₁ wf₂ le₂ same mem
      have le₁₂ := le₁.trans le₂
      have sources₂ : e₁.allDonors sources = e.allDonors sources := by
        simp only [allDonors, donors_of_beside beside]
      refine (((ih wf₂ (ev.fine.mono wf₁ wf₂ le₂) fun source hsource => ?_).mono (fun _ _ _ _ _ h => h)
        fun _ _ _ _ h => beside.trans h).bind ?_)
      · rw [beside.theory_eq fine wf wf₂ le₁₂]
        exact (follows source (List.mem_cons_of_mem _ hsource)).mono wf wf₂ le₁₂
      · rintro ⟨n, more⟩ e₃ s₃ wf₃ le₃ gains₃
        rw [sources₂] at gains₃
        exact .pure wf₃ (gains.trans gains₃ fine wf wf₂ wf₃ le₁₂ le₃)

theorem defer_spec (obeys : ctx.order.Obeys G) (wf : s.WellFormed) (fine : Fine G s e)
    (heq : eq ∈ e.equations) : Advancing G e s (defer ctx eq) fun _ e' _ => e'.rules = e.rules := by
  rw [defer]
  refine .bindModify ?_
  have moved : Advances G s e s { e with
      metrics := e.metrics.recordDeferred, equations := remove e.equations eq ++ [eq] } := by
    refine reorder_advances wf fine ⟨rfl, rfl, rfl, rfl, .refl _⟩ rfl fun d => ?_
    by_cases isEq : d = eq
    · simp [isEq, heq]
    · simp [mem_remove, isEq]
  have heq' : eq ∈ remove e.equations eq ++ [eq] := by simp
  have follows := moved.fine.follows_equation heq'
  refine TermM.Ensures.bind ((collectPairs_spec obeys wf moved.fine fun source hsource => ?_).mono
    (fun _ _ _ _ _ h => h)
    fun _ _ wf' le' h => moved.toEvolves.trans (h.evolves moved.fine wf wf' le') fine) ?_
  · simp only [List.mem_cons, List.not_mem_nil, or_false] at hsource
    rcases hsource with rfl | rfl | rfl | rfl
    · exact follows
    · exact Follows.reversed follows
    · exact follows
    · exact Follows.reversed follows
  rintro ⟨n, kept⟩ e₂ s₂ wf₂ le₂ gains
  exact .modify wf₂ ⟨moved.trans (gains.advances wf wf₂ le₂ moved.fine ⟨rfl, rfl, rfl, rfl, .refl _⟩
    rfl) fine, gains.beside.rules⟩

/-- An equation between equal terms may be dropped. -/
theorem dropTrivial_advances (wf : s.WellFormed) (fine : Fine G s e) (trivial : eq.isTrivial = true) :
    Advances G s e s { e with equations := remove e.equations eq } := by
  refine drop_advances wf fine (.refl _) rfl fun x y meansEq => ?_
  have same : eq.lhs = eq.rhs := of_decide_eq_true trivial
  obtain rfl : x = y := meansEq.1.unique (same ▸ meansEq.2)
  exact .refl x

/-- What a step does: it makes a rule of an equation, drops a trivial one, or puts off one without
direction. -/
inductive Stepped (G : Gauge) (e : Engine) (s' : Store) (e' : Engine) : Prop
  | oriented {eq ab : Equation} {e₁ : Engine} : eq ∈ e.equations → Directs G s' eq ab →
      Adds G eq ab e s' e₁ → Interreduces G e₁ s' e' → Stepped G e s' e'
  | dropped {eq : Equation} : eq ∈ e.equations → eq.isTrivial = true →
      e'.equations = remove e.equations eq → e'.rules = e.rules → Stepped G e s' e'
  | deferred {eq : Equation} {e₁ : Engine} : eq ∈ e.equations → eq.isTrivial = false →
      (G.strict → ∀ l r, s'.Means eq (l, r) → ¬ G.gt l r ∧ ¬ G.gt r l) → e₁.rules = e.rules →
      Interreduces G e₁ s' e' → Stepped G e s' e'

theorem Aside.stepped (aside : Aside e e') {e'' : Engine} (h : Stepped G e' s' e'') : Stepped G e s' e'' := by
  have equations := aside.equations
  have rules := aside.rules
  cases h with
  | oriented mem directs adds reduces =>
      rw [equations] at mem
      refine .oriented mem directs ⟨?_, adds.avoids, ?_⟩ reduces
      · exact rules ▸ adds.rules
      · exact rules ▸ equations ▸ adds.equations
  | dropped mem even fewer same =>
      exact .dropped (equations ▸ mem) even (equations ▸ fewer) (same.trans rules)
  | deferred mem proper apart same reduces =>
      exact .deferred (equations ▸ mem) proper apart (same.trans rules) reduces

theorem advanceInner_spec (obeys : ctx.order.Obeys G) (wf : s.WellFormed) (fine : Fine G s e) :
    Advancing G e s (advanceInner ctx) fun _ e' s' => Stepped G e s' e' := by
  rw [advanceInner]
  have started : Aside e { e with steps := e.steps + 1, metrics := e.metrics.recordStep } :=
    ⟨⟨rfl, rfl, rfl, rfl, .refl _⟩, rfl⟩
  refine Advancing.bind fine (.modify wf (started.advances fine wf wf (le_refl s))) ?_
  rintro _ _ _ wf₀ le₀ adv₀ ⟨rfl, rfl⟩
  have fine₀ := adv₀.fine
  refine Advancing.bind fine₀ ((pick_spec obeys wf fine₀).advancing wf fine₀) ?_
  rintro eq e₁ s₁ wf₁ le₁ adv₁ ⟨aside₁, heq⟩
  have fine₁ := adv₁.fine
  have heq₁ : eq ∈ e₁.equations := aside₁.equations ▸ heq
  refine Advancing.bind fine₁ ((orient_spec obeys wf₁ (fine₁.equations eq heq₁)).advancing wf₁ fine₁) ?_
  rintro out e₂ s₂ wf₂ le₂ adv₂ ⟨aside₂, directs, apart⟩
  have fine₂ := adv₂.fine
  have heq₂ : eq ∈ e₂.equations := aside₂.equations ▸ heq₁
  have aside := started.trans (aside₁.trans aside₂)
  split
  · rename_i ab
    refine Advancing.bind fine₂ (addRule_spec obeys wf₂ fine₂ heq₂ (directs ab rfl)) ?_
    intro _ e₃ s₃ wf₃ le₃ adv₃ adds
    refine (interreduce_spec obeys wf₃ adv₃.fine).mono (fun _ e₄ s₄ wf₄ le₄ h => ⟨h.1, ?_⟩)
      fun _ _ _ _ h => h
    exact aside.stepped (.oriented heq₂ ((directs ab rfl).mono wf₂ wf₄ (le₃.trans le₄))
      (adds.mono wf₃ wf₄ le₄) h.2)
  · split
    · rename_i isTrivial
      exact TermM.Ensures.modify wf₂ ⟨dropTrivial_advances wf₂ fine₂ isTrivial,
        aside.stepped (.dropped heq₂ isTrivial rfl rfl)⟩
    · rename_i proper
      refine .bindGet ?_
      split
      · refine .bindGet (.bindStore (fail_spec wf₂ ?_))
        exact (Beside.refl e₂).evolves fine₂ wf₂ wf₂ (le_refl s₂)
      · refine Advancing.bind fine₂ (defer_spec obeys wf₂ fine₂ heq₂) ?_
        intro _ e₃ s₃ wf₃ le₃ adv₃ rules
        refine (interreduce_spec obeys wf₃ adv₃.fine).mono (fun _ e₄ s₄ wf₄ le₄ h => ⟨h.1, ?_⟩)
          fun _ _ _ _ h => h
        refine aside.stepped (.deferred heq₂ (eq_false_of_ne_true proper) ?_ rules h.2)
        intro strict l r means
        obtain ⟨l₂, r₂, means₂, -⟩ := fine₂.equations eq heq₂
        have later := Equation.means_mono means₂ wf₂ wf₄ (le₃.trans le₄)
        obtain rfl := later.1.unique means.1
        obtain rfl := later.2.unique means.2
        exact apart rfl strict l₂ r₂ means₂

end OrderedCompletion.Engine
