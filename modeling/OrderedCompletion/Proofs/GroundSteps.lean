import OrderedCompletion.Proofs.Fuel
import OrderedCompletion.Proofs.GroundReduction
import OrderedCompletion.Proofs.Measure

/-! A step of completion on ground equations comes to an end, and fails only if a normalization takes too
long. -/

namespace OrderedCompletion

namespace Engine

open TermM (Guards)

variable {G : Gauge} {I J : Term → Prop} {ctx : Context} {e e' : Engine} {s s' : Store} {eq ab : Equation}
variable {α β : Type} {r : Ref} {a : Term}

/-- All terms are among those that may be stored, and no stop has been requested. -/
abbrev Tame (J : Term → Prop) (e : Engine) (s : Store) : Prop := e.workspace.Tame J s

/-- The action stores only what may be stored, and fails only if a normalization takes too long. -/
abbrev Steady (J : Term → Prop) (e : Engine) (s : Store) (x : EngineM α) : Prop :=
  Guards e s x (Tame J) Diverges

/-- The action changes nothing and never fails. -/
abbrev Quiet (e : Engine) (s : Store) (x : EngineM α) : Prop :=
  TermM.Ensures e s x (fun _ e' s' => e' = e ∧ Store.SameTerms s s') fun _ _ => False

section
variable {x : EngineM α} {f : α → EngineM β}

theorem Quiet.pure {a : α} (wf : s.WellFormed) : Quiet e s (Pure.pure a) :=
  TermM.Ensures.pure wf ⟨rfl, .refl s⟩

theorem Quiet.bind (hx : Quiet e s x)
    (hf : ∀ a s', s'.WellFormed → s ≤ s' → Store.SameTerms s s' → Quiet e s' (f a)) :
    Quiet e s (x >>= f) := by
  refine TermM.Ensures.bind hx ?_
  rintro a _ s₁ wf₁ le₁ ⟨rfl, same₁⟩
  refine TermM.Ensures.mono (hf a s₁ wf₁ le₁ same₁) ?_ fun _ _ _ _ h => h
  rintro b _ s₂ - - ⟨rfl, same₂⟩
  exact ⟨rfl, same₁.trans same₂⟩

theorem Quiet.steady (h : Quiet e s x) (tame : Tame J e s) : Steady J e s x := by
  refine .of_ensures (h.mono ?_ fun _ _ _ _ no => no)
  rintro _ _ s' - - ⟨rfl, same⟩
  exact tame.same same

theorem onWorkspace_quiet {x : TermM Workspace Halt α}
    (h : TermM.Ensures e.workspace s x (fun _ w' s' => w' = e.workspace ∧ Store.SameTerms s s')
      fun _ _ => False) : Quiet e s (onWorkspace x) := by
  refine (TermM.Ensures.within h).mono ?_ ?_
  · rintro _ _ s' - - ⟨_, rfl, rfl, same⟩
    exact ⟨rfl, same⟩
  · rintro _ _ - - ⟨_, -, no⟩
    exact no

theorem Steady.poison (h : Steady J e s x) : Steady J e s (poisonOnError x) := by
  obtain ⟨tame, known⟩ := h
  rw [Steady, Guards, poisonOnError_apply]
  cases outcome : (x e s).1.1 with
  | ok a => exact ⟨tame, fun _ same => by cases same⟩
  | error halt => exact ⟨tame, fun _ same => known _ (outcome.trans (congrArg _ (Except.error.inj same)))⟩

end

section
variable {es : List Equation}

theorem orientable_quiet (quiet : ctx.order.Quiet I) (wf : s.WellFormed) (among : s.Among I eq) :
    Quiet e s (orientable ctx eq) :=
  onWorkspace_quiet (Workspace.askEither_quiet quiet wf among)

theorem orient_quiet (quiet : ctx.order.Quiet I) (wf : s.WellFormed) (among : s.Among I eq) :
    Quiet e s (orient ctx eq) := by
  obtain ⟨l, r, means, hl, hr⟩ := among
  rw [orient]
  refine (onWorkspace_quiet (Workspace.ask_quiet quiet wf means.1 means.2 hl hr)).bind
    fun yes s₁ wf₁ le₁ same₁ => ?_
  split
  · exact .pure wf₁
  · have means₁ := Equation.means_mono means wf wf₁ le₁
    refine (onWorkspace_quiet (Workspace.ask_quiet quiet wf₁ means₁.2 means₁.1 hr hl)).bind
      fun yes s₂ wf₂ le₂ same₂ => ?_
    split
    · exact .pure wf₂
    · exact .pure wf₂

theorem findOrientable_quiet (quiet : ctx.order.Quiet I) (wf : s.WellFormed) (among : s.AmongAll I es) :
    Quiet e s (findOrientable ctx es) := by
  induction es generalizing s with
  | nil => exact .pure wf
  | cons d es ih =>
      rw [findOrientable]
      refine (orientable_quiet quiet wf (among d List.mem_cons_self)).bind fun yes s₁ wf₁ le₁ _ => ?_
      split
      · exact .pure wf₁
      · exact ih wf₁ ((among.of_subset (List.subset_cons_self d es)).mono wf wf₁ le₁)

theorem partitionOrientable_quiet (quiet : ctx.order.Quiet I) (wf : s.WellFormed) (among : s.AmongAll I es) :
    Quiet e s (partitionOrientable ctx es) := by
  induction es generalizing s with
  | nil => exact .pure wf
  | cons d es ih =>
      rw [partitionOrientable]
      refine (orientable_quiet quiet wf (among d List.mem_cons_self)).bind fun yes s₁ wf₁ le₁ _ => ?_
      have rest := (among.of_subset (List.subset_cons_self d es)).mono wf wf₁ le₁
      exact (ih wf₁ rest).bind fun _ s₂ wf₂ _ _ => .pure wf₂

theorem allUnorientable_quiet (quiet : ctx.order.Quiet I) (wf : s.WellFormed) (among : s.AmongAll I es) :
    Quiet e s (allUnorientable ctx es) := by
  induction es generalizing s with
  | nil => exact .pure wf
  | cons d es ih =>
      rw [allUnorientable]
      refine (orientable_quiet quiet wf (among d List.mem_cons_self)).bind fun yes s₁ wf₁ le₁ _ => ?_
      split
      · exact .pure wf₁
      · exact ih wf₁ ((among.of_subset (List.subset_cons_self d es)).mono wf wf₁ le₁)

end

theorem pick_steady (quiet : ctx.order.Quiet I) (wf : s.WellFormed) (among : s.AmongAll I e.equations)
    (some : e.equations ≠ []) (tame : Tame J e s) :
    Steady J e s (pick ctx) := by
  rw [pick]
  refine .bindGet (.bindEnsures (findOrientable_quiet quiet wf among) ?_)
  rintro out _ s₁ wf₁ - ⟨rfl, same⟩
  split
  · exact .pure (tame.same same)
  · split
    · exact .pure (tame.same same)
    · rename_i none
      exact absurd none some

theorem reduceWith_steady {rules equations : List Equation} {action : Reducer → ReduceM α}
    (tame : Tame J e s)
    (h : ∀ (rd : Reducer) (st : ReduceState), rd.order = ctx.order → rd.rules = rules →
      rd.equations = equations → st.memo = {} → Reducer.Tame J st s →
      Guards st s (action rd) (Reducer.Tame J) Reducer.Diverged) :
    Steady J e s (reduceWith ctx rules equations action) :=
  reduceWith_guards (fun rd st order hrules heqs same memo =>
    h rd st order hrules heqs memo (by rwa [Reducer.Tame, same])) fun _ _ tame => tame

section
variable {rules : List Equation}

theorem normalizeOne_steady (realm : Realm G I J) (obeys : ctx.order.Obeys G) (wf : s.WellFormed)
    (h : Reducible G s rules []) (among : s.AmongAll I rules) (hd : s.Denotes r a) (ha : I a)
    (tame : Tame J e s) : Steady J e s (normalizeOne ctx rules [] r) := by
  refine reduceWith_steady tame fun rd st order hrules none memo tame => ?_
  exact Reducer.normalize_guards realm (h.valid obeys order hrules none) (hrules ▸ among) none wf
    (Reducer.noted_nothing memo) hd ha tame

theorem normalizeWith_steady {rs : List Ref} {as : List Term} (realm : Realm G I J)
    (obeys : ctx.order.Obeys G) (wf : s.WellFormed) (h : Reducible G s rules []) (among : s.AmongAll I rules)
    (hd : s.DenotesAll rs as) (has : ∀ a ∈ as, I a) (tame : Tame J e s) :
    Steady J e s (normalizeWith ctx rules [] rs) := by
  refine reduceWith_steady tame fun rd st order hrules none memo tame => ?_
  exact Reducer.normalizeAll_guards realm (h.valid obeys order hrules none) (hrules ▸ among) none wf
    (Reducer.noted_nothing memo) hd has tame

theorem collapseBy_steady (realm : Realm G I J) (obeys : ctx.order.Obeys G) (wf : s.WellFormed)
    (h : Reducible G s [ab] []) (amongAb : s.AmongAll I [ab]) (among : s.AmongAll I rules)
    (tame : Tame J e s) :
    Steady J e s (collapseBy ctx ab rules) := by
  induction rules generalizing e s with
  | nil => exact .pure tame
  | cons rule rules ih =>
      rw [collapseBy]
      obtain ⟨l, r, means, hl, -⟩ := among rule List.mem_cons_self
      refine .bind (normalizeOne_spec obeys wf h means.1 (realm.inSig hl))
        (normalizeOne_steady realm obeys wf h amongAb means.1 hl tame) fun lhs e₁ s₁ wf₁ le₁ _ tame₁ => ?_
      have rest := (among.of_subset (List.subset_cons_self rule rules)).mono wf wf₁ le₁
      split
      · exact .bindModify (ih wf₁ (h.mono wf wf₁ le₁) (amongAb.mono wf wf₁ le₁) rest tame₁)
      · exact ih wf₁ (h.mono wf wf₁ le₁) (amongAb.mono wf wf₁ le₁) rest tame₁

theorem findComposable_steady {before : List Equation} (realm : Realm G I J) (obeys : ctx.order.Obeys G)
    (wf : s.WellFormed) (h : Reducible G s (before ++ rules) []) (among : s.AmongAll I (before ++ rules))
    (tame : Tame J e s) : Steady J e s (findComposable ctx before rules) := by
  induction rules generalizing before e s with
  | nil => exact .pure tame
  | cons rule after ih =>
      rw [findComposable]
      obtain ⟨l, r, means, -, hr⟩ := among rule (by simp)
      have others := h.of_subset subset_around
      refine .bind (normalizeOne_spec obeys wf others means.2 (realm.inSig hr))
        (normalizeOne_steady realm obeys wf others (among.of_subset subset_around) means.2 hr tame)
        fun rhs e₁ s₁ wf₁ le₁ _ tame₁ => ?_
      split
      · exact .pure tame₁
      · rw [List.append_cons] at h among
        exact ih wf₁ (h.mono wf wf₁ le₁) (among.mono wf wf₁ le₁) tame₁

end

/-- All sides of equations and rules are among given terms. -/
structure Within (I : Term → Prop) (s : Store) (e : Engine) : Prop where
  equations : s.AmongAll I e.equations
  rules : s.AmongAll I e.rules

theorem Within.mono (h : Within I s e) (wf : s.WellFormed) (wf' : s'.WellFormed) (le : s ≤ s') :
    Within I s' e :=
  ⟨h.equations.mono wf wf' le, h.rules.mono wf wf' le⟩

theorem Beside.within (h : Beside e e') (within : Within I s e) : Within I s e' :=
  ⟨h.equations ▸ within.equations, h.rules ▸ within.rules⟩

theorem Within.ground (h : Within I s e) (realm : Realm G I J) : Ground s e := by
  have known : ∀ d, s.Among I d → (s.term d.lhs).IsGround ∧ (s.term d.rhs).IsGround := by
    rintro d ⟨l, r, means, hl, hr⟩
    exact ⟨means.1.2 ▸ realm.ground hl, means.2.2 ▸ realm.ground hr⟩
  intro d hd
  rcases List.mem_append.1 hd with hd | hd
  · exact known d (h.equations d hd)
  · exact known d (h.rules d hd)

theorem Directs.among (h : Directs G s eq ab) (among : s.Among I eq) : s.Among I ab := by
  obtain ⟨l, r, means, hl, hr⟩ := among
  rcases h.same with rfl | rfl
  · exact ⟨l, r, means, hl, hr⟩
  · exact ⟨r, l, Equation.means_reversed means, hr, hl⟩

theorem exists_of_sublistForall₂ {R : Equation → Equation → Prop} {ds cs : List Equation} {d : Equation}
    (h : List.SublistForall₂ R ds cs) (hd : d ∈ ds) : ∃ c ∈ cs, R d c := by
  obtain ⟨cs', all, sub⟩ := List.sublistForall₂_iff.1 h
  obtain ⟨c, hc, lower⟩ := Store.exists_of_forall₂_left all hd
  exact ⟨c, sub.subset hc, lower⟩

theorem among_of_lowersRight {ds cs : List Equation} (realm : Realm G I J)
    (h : List.SublistForall₂ (LowersRight G s) ds cs) (among : s.AmongAll I cs) : s.AmongAll I ds := by
  intro d hd
  obtain ⟨c, hc, same, x, y, hx, hy, -, under⟩ := exists_of_sublistForall₂ h hd
  obtain ⟨l, r, means, hl, hr⟩ := among c hc
  obtain rfl := hx.unique means.2
  exact ⟨l, y, ⟨same ▸ means.1, hy⟩, hl, realm.under hr under⟩

theorem among_of_lowersSides {ds cs : List Equation} (realm : Realm G I J)
    (h : List.SublistForall₂ (LowersSides G s) ds cs) (among : s.AmongAll I cs) : s.AmongAll I ds := by
  intro d hd
  obtain ⟨c, hc, ⟨x, y, hx, hy, -, left⟩, x', y', hx', hy', -, right⟩ := exists_of_sublistForall₂ h hd
  obtain ⟨l, r, means, hl, hr⟩ := among c hc
  obtain rfl := hx.unique means.1
  obtain rfl := hx'.unique means.2
  exact ⟨y, y', ⟨hy, hy'⟩, realm.under hl left, realm.under hr right⟩

theorem Composes.within (h : Composes G e s e') (realm : Realm G I J) (within : Within I s e) :
    Within I s e' :=
  ⟨h.equations ▸ within.equations, among_of_lowersRight realm h.rules within.rules⟩

theorem Simplifies.within (h : Simplifies G e s e') (realm : Realm G I J) (within : Within I s e) :
    Within I s e' :=
  ⟨among_of_lowersSides realm h.equations within.equations, h.rules ▸ within.rules⟩

theorem Interreduces.within (h : Interreduces G e s e') (realm : Realm G I J) (within : Within I s e) :
    Within I s e' := by
  obtain ⟨es, lower, fewer⟩ := h.equations
  have among := among_of_lowersSides realm lower within.equations
  exact ⟨among.of_subset fewer.subset, among_of_lowersRight realm h.rules within.rules⟩

theorem superpose_steady (realm : Realm G I J) (quiet : ctx.order.Quiet I) (wf : s.WellFormed)
    (here : s.Falls G I ab) (falls : ∀ d ∈ e.rules, s.Falls G I d) (tame : Tame J e s) :
    Steady J e s (superpose ctx ab false) := by
  have donors : ∀ d ∈ e.donors ab false, s.Falls G I d.1 ∧ s.Falls G I d.2 :=
    forall_donors here falls fun no => by cases no
  have minds : e.superposer.Minds J s (superposition ctx e ab false) :=
    Superposer.superposeAll_minds realm quiet wf tame donors
  rw [superpose]
  refine .bindGet (.bindRun (.of_ensures (K := fun _ => False) minds) ?_)
  rintro ⟨outcome, sp⟩ s₁ tame₁ known
  refine .bindSet ?_
  cases outcome with
  | ok pairs => exact .pure tame₁
  | error err => exact (known err rfl).elim

theorem Fine.falls (fine : Fine G s e) (among : s.AmongAll I e.rules) (h : eq ∈ e.rules) :
    s.Falls G I eq := by
  obtain ⟨l, r, means, hl, -⟩ := among eq h
  exact ⟨l, r, means, hl, (fine.descends l r (Store.mem_theory h means)).2⟩

theorem addRule_steady (realm : Realm G I J) (obeys : ctx.order.Obeys G) (quiet : ctx.order.Quiet I)
    (wf : s.WellFormed) (fine : Fine G s e) (within : Within I s e) (heq : eq ∈ e.equations)
    (directs : Directs G s eq ab) (tame : Tame J e s) : Steady J e s (addRule ctx eq ab) := by
  have fine₀ := (withRule_evolves fine heq directs).fine
  have isRule : ab ∈ (e.withRule ab).rules := Superposition.mem_addNew.2 (.inr rfl)
  have follows := fine₀.follows_rule isRule
  have among : s.AmongAll I (e.withRule ab).rules := by
    intro d hd
    rcases Superposition.mem_addNew.1 hd with hd | rfl
    · exact within.rules d hd
    · exact directs.among (within.equations eq heq)
  rw [addRule]
  refine .bindModify (.bind (superpose_spec (e := e.withRule ab) obeys wf (fine₀.donates follows))
    (superpose_steady realm quiet wf (fine₀.falls among isRule) (fun d hd => fine₀.falls among hd) tame) ?_)
  rintro pairs e₁ s₁ wf₁ le₁ ⟨beside, yields⟩ tame₁
  have fine₁ := (beside.evolves fine₀ wf wf₁ le₁).fine
  refine .bindGet (.bindLift (filterSubsumed_spec wf₁ fine₁.equations (hasAll_of_follows yields.follows)) ?_)
  rintro kept s₂ wf₂ le₂ ⟨same, -⟩
  have fine₂ := fine₁.mono wf₁ wf₂ le₂
  have among₂ : s₂.AmongAll I e₁.rules := beside.rules ▸ among.mono wf wf₂ (le₁.trans le₂)
  have single : [ab] ⊆ e₁.rules := fun d hd => List.mem_singleton.1 hd ▸ beside.rules ▸ isRule
  refine .bindModify (.bindGet (collapseBy_steady realm obeys wf₂ (fine₂.reducible.of_subset single)
    (among₂.of_subset single) (among₂.of_subset fun d hd => ?_) (tame₁.same same)))
  exact (List.mem_filter.1 hd).1

theorem simplify_steady (realm : Realm G I J) (obeys : ctx.order.Obeys G) (wf : s.WellFormed)
    (fine : Fine G s e) (within : Within I s e) (tame : Tame J e s) : Steady J e s (simplify ctx) := by
  have denotes : s.DenotesAll e.bothSides (e.bothSides.map s.term) :=
    List.forall₂_map_right_iff.2 (List.forall₂_same.2
      fun side h => Store.denotes_term (fine.bothSides side h).1)
  have inside : ∀ a ∈ e.bothSides.map s.term, I a := by
    intro a ha
    obtain ⟨side, hside, rfl⟩ := List.mem_map.1 ha
    obtain ⟨d, hd, here⟩ := List.mem_flatMap.1 hside
    obtain ⟨l, r, means, hl, hr⟩ := within.equations d hd
    simp only [List.mem_cons, List.not_mem_nil, or_false] at here
    rcases here with rfl | rfl
    · exact means.1.2 ▸ hl
    · exact means.2.2 ▸ hr
  rw [simplify]
  have steady := normalizeWith_steady realm obeys wf fine.reducible within.rules denotes inside tame
  exact .bindGet (.andThen steady fun _ _ _ tame₁ => .modify tame₁)

theorem sortWorklist_steady (quiet : ctx.order.Quiet I) (wf : s.WellFormed) (within : Within I s e)
    (tame : Tame J e s) : Steady J e s (sortWorklist ctx) := by
  rw [sortWorklist]
  refine .bindGet ?_
  split
  · exact .andThen ((partitionOrientable_quiet quiet wf within.equations).steady tame)
      fun _ _ _ tame₁ => .bindStore (.modify tame₁)
  · exact .bindStore (.modify tame)

section
variable {sig : Signature} {gt : Term → Term → Prop} {laws : ReductionOrder sig gt}

open ReductionOrder

/-- A right side that is reduced, or dropped with its rule, makes the burden smaller. -/
theorem Composable.burden_lt {before after : List Equation} {old new : Equation}
    (h : Composable laws.groundGauge s before old new after) (wf : s.WellFormed)
    (fine : Fine laws.groundGauge s e)
    (split : e.rules = before ++ old :: after) (same : e'.equations = e.equations)
    (rules : e'.rules = if new ∈ before ++ after then before ++ after else before ++ new :: after) :
    (laws.burden s e').IsDershowitzMannaLT (laws.burden s e) := by
  obtain ⟨lhs, changed, ⟨l, r, r', means, denotes, down⟩, -⟩ := h
  obtain ⟨-, hr, -⟩ := fine.descends l r (Store.mem_theory (by simp [split]) means)
  have under := down.under hr
  have less : laws.rank (s.term new.rhs) < laws.rank (s.term old.rhs) := by
    rw [denotes.2, means.2.2]
    refine rank_lt hr ⟨under.1, under.2.resolve_left ?_⟩
    rintro rfl
    exact changed (denotes.inj means.2 wf)
  have whole : laws.burden s e = laws.allSides s (before ++ after) + {laws.rank (s.term old.lhs)} +
      (laws.allSides s e.equations + laws.allSides s e.equations) + {laws.rank (s.term old.rhs)} := by
    rw [burden, split]
    simp only [allSides_append, allSides_cons, sides, Multiset.insert_eq_cons, ← Multiset.singleton_add]
    abel
  split at rules
  · refine ⟨laws.burden s e', 0, laws.sides s old, by simp [sides], by simp, ?_, by simp⟩
    rw [whole, burden, rules, same, sides, Multiset.insert_eq_cons, ← Multiset.singleton_add]
    abel
  · refine ⟨_, {laws.rank (s.term new.rhs)}, {laws.rank (s.term old.rhs)}, by simp, ?_, whole,
      by simpa using less⟩
    rw [burden, rules, same]
    simp only [allSides_append, allSides_cons, sides, lhs, Multiset.insert_eq_cons, ← Multiset.singleton_add]
    abel

/-- Right sides are reduced only finitely often. -/
theorem compose_ends (realm : Realm laws.groundGauge I J) (obeys : ctx.order.Obeys laws.groundGauge)
    (wf : s.WellFormed) (fine : Fine laws.groundGauge s e) (among : s.AmongAll I e.rules)
    (tame : Tame J e s) :
    ∃ n, Steady J e s (compose ctx n) := by
  induction s, e using laws.burden_induction with
  | lighter s e ih =>
      suffices more : ∃ n, Steady J e s (compose ctx (n + 1)) by
        obtain ⟨n, steady⟩ := more
        exact ⟨n + 1, steady⟩
      have rules : Reducible laws.groundGauge s ([] ++ e.rules) [] := fine.reducible
      simp only [compose]
      refine (TermM.Guards.bindEnough (findComposable_spec obeys wf rules.hasRules rules.descends)
        (findComposable_steady realm obeys wf rules among tame) ?_).imp fun n => .bindGet
      rintro out e₁ s₁ wf₁ le₁ ⟨aside, found, -⟩ tame₁
      split
      · exact ⟨0, .pure tame₁⟩
      · rename_i before new after
        obtain ⟨old, split, composable⟩ := found before new after rfl
        have fine₁ := (aside.toBeside.evolves fine wf wf₁ le₁).fine
        have split₁ : e₁.rules = before ++ old :: after := aside.rules.trans split
        have fine₂ := (compose_advances fine₁ split₁ composable fun d => mem_composed).fine
        have lowers := composable.lowers (split₁ ▸ fine₁.rules)
        have among₁ := among_of_lowersRight realm lowers (split ▸ among.mono wf wf₁ le₁)
        refine (ih s₁ _ ?_ wf₁ fine₂ among₁ tame₁).imp fun n => .bindModify
        rw [← burden_of_le fine wf wf₁ le₁, ← aside.toBeside.burden_eq]
        exact composable.burden_lt wf₁ fine₁ split₁ rfl rfl

theorem interreduce_ends (realm : Realm laws.groundGauge I J) (obeys : ctx.order.Obeys laws.groundGauge)
    (quiet : ctx.order.Quiet I) (wf : s.WellFormed) (fine : Fine laws.groundGauge s e) (within : Within I s e)
    (tame : Tame J e s) : ∃ n, Steady J e s (interreduce (ctx.withFuel n)) := by
  obtain ⟨n, steady⟩ := compose_ends realm obeys wf fine within.rules tame
  refine ⟨n, ?_⟩
  rw [interreduce, compose_bounded]
  refine .bind (compose_spec obeys wf fine) steady ?_
  rintro _ e₁ s₁ wf₁ le₁ ⟨adv₁, composes⟩ tame₁
  have within₁ := composes.within realm (within.mono wf wf₁ le₁)
  refine .bind (simplify_spec obeys wf₁ adv₁.fine)
    (simplify_steady realm obeys wf₁ adv₁.fine within₁ tame₁) ?_
  rintro _ e₂ s₂ wf₂ le₂ ⟨adv₂, simplifies⟩ tame₂
  refine .bindGet ?_
  have within₂ := simplifies.within realm (within₁.mono wf₁ wf₂ le₂)
  have tidies : ∀ {e₃ : Engine} {s₃ : Store}, s₃.WellFormed → Fine laws.groundGauge s₃ e₃ → Tame J e₃ s₃ →
      Steady J e₃ s₃ (do
        let equations ← removeSubsumed [] (← get).equations
        modify fun e => { e with equations }) := by
    intro e₃ s₃ wf₃ fine₃ tame₃
    refine .bindGet (.bindLift (removeSubsumed_spec (G := laws.groundGauge) wf₃ fine₃.equations) ?_)
    rintro _ s₄ - - ⟨same, -⟩
    exact .modify (tame₃.same same)
  split
  · refine .bind (sortWorklist_spec obeys wf₂ adv₂.fine) (sortWorklist_steady quiet wf₂ within₂ tame₂) ?_
    rintro _ e₃ s₃ wf₃ - ⟨adv₃, -⟩ tame₃
    exact tidies wf₃ adv₃.fine tame₃
  · exact tidies wf₂ adv₂.fine tame₂

/-- What comes with a new rule is less than the left side of a rule. -/
theorem Adds.within (h : Adds laws.groundGauge eq ab e s e') (realm : Realm laws.groundGauge I J)
    (mem : eq ∈ e.equations) (directs : Directs laws.groundGauge s eq ab) (fine : Fine laws.groundGauge s e)
    (within : Within I s e) :
    Within I s e' := by
  have rules : s.AmongAll I (addNew e.rules ab) := by
    intro d hd
    rcases Superposition.mem_addNew.1 hd with hd | rfl
    · exact within.rules d hd
    · exact directs.among (within.equations eq mem)
  refine ⟨fun c hc => ?_, rules.of_subset h.rules.subset⟩
  obtain ⟨front, kept, equations, origin, pairs⟩ := h.equations
  have new : c ∈ front ++ kept → s.Among I c := by
    intro hc
    have ground := (within.ground realm).rules fine mem directs
    obtain ⟨d, isRule, w, x, y, hw, -, means, left, right⟩ := h.exists_topped ground origin pairs hc
    have there : d ∈ addNew e.rules ab := Superposition.mem_addNew.2 (isRule.elim .inr fun old => .inl old.1)
    obtain ⟨l, r, means', hl, -⟩ := rules d there
    obtain rfl := hw.unique means'.1
    exact ⟨x, y, means, realm.below hl left, realm.below hl right⟩
  rw [equations] at hc
  rcases List.mem_append.1 hc with hc | hc
  · exact new (List.mem_append_left _ hc)
  · rcases Superposition.mem_foldl_addNew.1 (mem_remove.1 hc).1 with hc | hc
    · exact within.equations c hc
    · exact new (List.mem_append_right _ hc)

/-- A step with enough fuel fails only if a normalization takes too long. -/
theorem advance_ends (realm : Realm laws.groundGauge I J) (obeys : ctx.order.Obeys laws.groundGauge)
    (quiet : ctx.order.Quiet I) (wf : s.WellFormed) (fine : Fine laws.groundGauge s e) (within : Within I s e)
    (some : e.equations ≠ []) (comparable : Comparable laws.groundGauge s e) (tame : Tame J e s) :
    ∃ n, Steady J e s (advance (ctx.withFuel n)) := by
  suffices inner : ∃ n, Steady J e s (advanceInner (ctx.withFuel n)) by
    obtain ⟨n, steady⟩ := inner
    exact ⟨n, steady.poison⟩
  simp only [advanceInner, pick_bounded, addRule_bounded]
  let started : Engine := { e with steps := e.steps + 1, metrics := e.metrics.recordStep }
  have fine₀ : Fine laws.groundGauge s started := ⟨fine.equations, fine.rules, fine.descends, fine.distinct⟩
  refine (TermM.Guards.bindEnough (pick_spec obeys wf fine₀)
    (pick_steady quiet wf within.equations some tame) ?_).imp fun n => .bindModify
  rintro eq e₁ s₁ wf₁ le₁ ⟨aside₁, heq⟩ tame₁
  have fine₁ := (aside₁.toBeside.evolves fine₀ wf wf₁ le₁).fine
  have within₁ : Within I s₁ e₁ :=
    aside₁.toBeside.within ⟨within.equations.mono wf wf₁ le₁, within.rules.mono wf wf₁ le₁⟩
  have heq₁ : eq ∈ e₁.equations := aside₁.equations ▸ heq
  refine TermM.Guards.bindEnough (orient_spec obeys wf₁ (fine₁.equations eq heq₁))
    ((orient_quiet quiet wf₁ (within₁.equations eq heq₁)).steady tame₁) ?_
  rintro out e₂ s₂ wf₂ le₂ ⟨aside₂, directs, apart⟩ tame₂
  have fine₂ := (aside₂.toBeside.evolves fine₁ wf₁ wf₂ le₂).fine
  have within₂ := aside₂.toBeside.within (within₁.mono wf₁ wf₂ le₂)
  split
  · rename_i ab
    have heq₂ : eq ∈ e₂.equations := aside₂.equations ▸ heq₁
    have directs₂ := directs ab rfl
    refine TermM.Guards.bindEnough (addRule_spec obeys wf₂ fine₂ heq₂ directs₂)
      (addRule_steady realm obeys quiet wf₂ fine₂ within₂ heq₂ directs₂ tame₂) ?_
    rintro _ e₃ s₃ wf₃ le₃ ⟨adv₃, adds⟩ tame₃
    have within₃ := adds.within realm heq₂ (directs₂.mono wf₂ wf₃ le₃) (fine₂.mono wf₂ wf₃ le₃)
      (within₂.mono wf₂ wf₃ le₃)
    exact interreduce_ends realm obeys quiet wf₃ adv₃.fine within₃ tame₃
  · obtain ⟨l, r, means, -⟩ := fine.equations eq heq
    obtain ⟨no, no'⟩ := apart rfl trivial l r (Equation.means_mono means wf wf₂ (le₁.trans le₂))
    exact ((comparable eq heq l r means).elim no no').elim

end

end Engine
end OrderedCompletion
