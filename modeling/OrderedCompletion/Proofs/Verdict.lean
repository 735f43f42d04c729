import OrderedCompletion.Proofs.CriticalPairs
import OrderedCompletion.Proofs.GroundCompleteness
import OrderedCompletion.Proofs.Normalization

/-! When the check at the end of a run says yes: if the worklist is empty, or if no equation has a direction
and all critical pairs join. -/

namespace OrderedCompletion

variable {gt : Term → Term → Prop} {sig : Signature} {f : Term → Term} {W : Theory} {c c' : Term × Term}

/-- The terms of a pair have normal forms that are equal or an instance of an equation. -/
def Joins (f : Term → Term) (W : Theory) (c : Term × Term) : Prop :=
  ∃ x y, Term.NormalForm f c.1 x ∧ Term.NormalForm f c.2 y ∧ (x = y ∨ Instance W x y)

theorem Joins.of_variants (equivariant : Term.Equivariant f) (h : Joins f W c) (variants : Variants c c') :
    Joins f W c' := by
  obtain ⟨κ, κ', left, right, rfl⟩ := variants
  obtain ⟨x, y, hx, hy, meet⟩ := h
  refine ⟨_, _, hx.rename equivariant left, hy.rename equivariant right, ?_⟩
  exact meet.imp (congrArg _) (·.subst κ)

/-- It depends on the normal forms only. -/
theorem joins_iff {x y : Term} (hx : Term.NormalForm f c.1 x) (hy : Term.NormalForm f c.2 y) :
    Joins f W c ↔ x = y ∨ Instance W x y := by
  constructor
  · rintro ⟨x', y', hx', hy', meet⟩
    obtain rfl := hx.unique hx'
    obtain rfl := hy.unique hy'
    exact meet
  · exact fun meet => ⟨x, y, hx, hy, meet⟩

/-- All critical pairs of rules, and of equations in both directions, join. -/
def AllJoin (gt : Term → Term → Prop) (f : Term → Term) (R W : Theory) : Prop :=
  ∀ gd ∈ Gauge.Directions R W, ∀ ab ∈ Gauge.Directions R W, ∀ p c, Critical gt gd ab p c → Joins f W c

/-- No equation has a direction. -/
def Unoriented (gt : Term → Term → Prop) (W : Theory) : Prop := ∀ l r, (l, r) ∈ W → ¬ gt l r ∧ ¬ gt r l

namespace Engine

variable {ctx : Context} {o : Order} {e e' : Engine} {s s' : Store} {eq : Equation}

/-- The order answers as a relation says that does not depend on names, equations and rules are stored, and
rules bring in no variables. -/
structure Decided (sig : Signature) (gt : Term → Term → Prop) (o : Order) (s : Store) (e : Engine) : Prop where
  decides : o.Decides sig gt
  blind : Term.Blind gt
  equations : s.HasAll sig e.equations
  rules : s.HasAll sig e.rules
  binding : ∀ d ∈ s.sides e.rules, ∀ v ∈ d.2.vars, v ∈ d.1.vars

/-- Besides, no variable is drawn twice. -/
structure Checkable (sig : Signature) (gt : Term → Term → Prop) (o : Order) (s : Store) (e : Engine) : Prop
    extends Decided sig gt o s e where
  distinct : e.workspace.supply.Distinct

theorem Decided.aside (h : Decided sig gt o s e) (aside : Aside e e') (wf : s.WellFormed)
    (wf' : s'.WellFormed) (le : s ≤ s') : Decided sig gt o s' e' where
  decides := h.decides
  blind := h.blind
  equations := aside.equations ▸ h.equations.mono wf wf' le
  rules := aside.rules ▸ h.rules.mono wf wf' le
  binding := by
    rw [aside.rules, h.rules.sides_eq wf wf' le]
    exact h.binding

theorem Checkable.aside (h : Checkable sig gt o s e) (aside : Aside e e') (wf : s.WellFormed)
    (wf' : s'.WellFormed) (le : s ≤ s') : Checkable sig gt o s' e' :=
  ⟨h.toDecided.aside aside wf wf' le, aside.later.distinct h.distinct⟩

theorem Decided.active (h : Decided sig gt o s e) : s.HasAll sig e.activeEquations := by
  rw [activeEquations]
  split
  · exact h.equations
  · exact fun _ h => by cases h

/-- What the rules and active equations of a run make of a term at the top. -/
noncomputable def top (gt : Term → Term → Prop) (s : Store) (e : Engine) : Term → Term :=
  Term.top gt (s.sides e.rules) (s.sides e.activeEquations)

theorem top_equivariant (blind : Term.Blind gt) : Term.Equivariant (e.top gt s) :=
  Term.top_equivariant blind.renamable

theorem Decided.top_over (h : Decided sig gt o s e) (t : Term) (ht : t.Over sig) : (e.top gt s t).Over sig :=
  Term.top_over (fun _ => h.rules.sides_over) (fun _ => h.active.sides_over) t ht

theorem Decided.top_eq (h : Decided sig gt o s e) (aside : Aside e e') (wf : s.WellFormed)
    (wf' : s'.WellFormed) (le : s ≤ s') : e'.top gt s' = e.top gt s := by
  rw [top, top, aside.toBeside.activeEquations, aside.rules, h.rules.sides_eq wf wf' le,
    h.active.sides_eq wf wf' le]

theorem Checkable.worklist_eq (h : Checkable sig gt o s e) (aside : Aside e e') (wf : s.WellFormed)
    (wf' : s'.WellFormed) (le : s ≤ s') : s'.theory e'.equations = s.theory e.equations := by
  rw [aside.equations, h.equations.theory_eq wf wf' le]

theorem Decided.reducer (h : Decided sig gt o s e) {rd : Reducer} (order : rd.order = o)
    (rules : rd.rules = e.rules) (equations : rd.equations = e.activeEquations) :
    rd.Decided s sig gt (s.sides e.rules) (s.sides e.activeEquations) where
  decides := order ▸ h.decides
  blind := h.blind
  hasRules := rules ▸ h.rules
  hasEquations := equations ▸ h.active
  rules := by rw [rules]
  equations := by rw [equations]
  binding := h.binding

/-- The sides of an equation denote the normal forms of a pair of terms. -/
structure NormalPair (f : Term → Term) (s : Store) (c : Term × Term) (out : Equation) : Prop where
  left : Reducer.Finds f s c.1 out.lhs
  right : Reducer.Finds f s c.2 out.rhs

theorem NormalPair.mono {out : Equation} (h : NormalPair f s c out) (wf : s.WellFormed)
    (wf' : s'.WellFormed) (le : s ≤ s') : NormalPair f s' c out :=
  ⟨h.left.mono wf wf' le, h.right.mono wf wf' le⟩

theorem NormalPair.exists_means {out : Equation} (h : NormalPair f s c out) :
    ∃ x y, s.Means out (x, y) ∧ Term.NormalForm f c.1 x ∧ Term.NormalForm f c.2 y := by
  obtain ⟨⟨x, hx, left⟩, y, hy, right⟩ := h
  exact ⟨x, y, ⟨hx, hy⟩, left, right⟩

/-- Normal forms have no other variables. -/
theorem NormalPair.exists_clear {out pair : Equation} {supply : Supply} (h : NormalPair f s' c out)
    (equivariant : Term.Equivariant f) (inSig : ∀ t : Term, t.Over sig → (f t).Over sig)
    (clear : Clear sig supply s pair c) : ∃ d, Clear sig supply s' out d ∧
      Term.NormalForm f c.1 d.1 ∧ Term.NormalForm f c.2 d.2 := by
  obtain ⟨x, y, means, left, right⟩ := h.exists_means
  exact ⟨(x, y), ⟨means, left.over inSig clear.left, right.over inSig clear.right,
    clear.withholdsLeft.of_vars (left.vars equivariant), clear.withholdsRight.of_vars (right.vars equivariant)⟩,
    left, right⟩

theorem normalizeSides_exact (h : Decided sig gt ctx.order s e) (wf : s.WellFormed)
    (clear : Clear sig e.workspace.supply s eq c) :
    Leaves e s (normalizeSides ctx eq) fun out s' => NormalPair (e.top gt s) s' c out := by
  rw [normalizeSides]
  refine .bindGet (reduceWith_spec fun rd st order hrules heqs workspace memo => ?_)
  have decided := h.reducer order hrules heqs
  have left := clear.withholdsLeft
  have right := clear.withholdsRight
  rw [← workspace] at left right
  refine ((Reducer.normalize_exact decided wf (Reducer.noted_nothing memo) clear.means.1 clear.left left).mono
    (fun _ _ _ _ _ h => h) fun _ _ _ _ h => h.later).bind ?_
  rintro lhs st₁ s₁ wf₁ le₁ ⟨⟨noted₁, later₁⟩, finds⟩
  refine ((Reducer.normalize_exact (decided.mono wf wf₁ le₁) wf₁ noted₁ (clear.means.2.mono wf wf₁ le₁)
    clear.right (right.later later₁)).mono (fun _ _ _ _ _ h => h) fun _ _ _ _ h => later₁.trans h.later).bind ?_
  rintro rhs st₂ s₂ wf₂ le₂ ⟨⟨-, later₂⟩, finds₂⟩
  exact .pure wf₂ ⟨later₁.trans later₂, finds.mono wf₁ wf₂ le₂, finds₂⟩

/-- What normalizing pairs comes to: what was found before, and the normal forms of the pairs that have
different ones. -/
structure Normalized (f : Term → Term) (s : Store) (found pairs out : List Equation) : Prop where
  old : found ⊆ out
  arise : ∀ d ∈ out, d ∈ found ∨ d.isTrivial = false ∧ ∃ pair ∈ pairs, ∃ c, s.Means pair c ∧ NormalPair f s c d
  all : ∀ pair ∈ pairs, ∀ c, s.Means pair c → ∃ d, NormalPair f s c d ∧ (d.isTrivial = true ∨ d ∈ out)

theorem Normalized.clear {pairs out : List Equation} {supply : Supply} (h : Normalized f s' [] pairs out)
    (equivariant : Term.Equivariant f) (inSig : ∀ t : Term, t.Over sig → (f t).Over sig) (wf : s.WellFormed)
    (wf' : s'.WellFormed) (le : s ≤ s') (clear : ∀ pair ∈ pairs, ∃ c, Clear sig supply s pair c) :
    ∀ d ∈ out, ∃ c, Clear sig supply s' d c := by
  intro d hd
  obtain ⟨-, pair, hpair, c, means, normal⟩ := (h.arise d hd).resolve_left List.not_mem_nil
  obtain ⟨c', hc'⟩ := clear pair hpair
  obtain rfl := Equation.means_unique means (Equation.means_mono hc'.means wf wf' le)
  obtain ⟨x, clear', -⟩ := normal.exists_clear equivariant inSig hc'
  exact ⟨x, clear'⟩

theorem hasAll_of_clear {es : List Equation} {supply : Supply} (clear : ∀ d ∈ es, ∃ c, Clear sig supply s d c) :
    s.HasAll sig es := by
  intro d hd
  obtain ⟨c, hc⟩ := clear d hd
  exact ⟨c.1, c.2, hc.means, hc.left, hc.right⟩

theorem normalizePairs_exact {found pairs : List Equation} (h : Checkable sig gt ctx.order s e)
    (wf : s.WellFormed) (clear : ∀ pair ∈ pairs, ∃ c, Clear sig e.workspace.supply s pair c) :
    Leaves e s (normalizePairs ctx found pairs) fun out s' => Normalized (e.top gt s) s' found pairs out := by
  induction pairs generalizing e s found with
  | nil => exact .pure wf ⟨fun _ hd => hd, fun _ hd => .inl hd, fun _ h => by cases h⟩
  | cons pair pairs ih =>
      rw [normalizePairs]
      obtain ⟨c, hc⟩ := clear pair List.mem_cons_self
      refine (normalizeSides_exact h.toDecided wf hc).thread fun d e₁ s₁ wf₁ le₁ aside normal => ?_
      have clear₁ : ∀ pair ∈ pairs, ∃ c, Clear sig e₁.workspace.supply s₁ pair c := by
        intro pair hpair
        obtain ⟨c, hc⟩ := clear pair (List.mem_cons_of_mem _ hpair)
        exact ⟨c, hc.mono aside.later wf wf₁ le₁⟩
      refine (ih (h.aside aside wf wf₁ le₁) wf₁ clear₁).mono fun out s₂ wf₂ le₂ rest => ?_
      rw [h.top_eq aside wf wf₁ le₁] at rest
      have means₂ := Equation.means_mono hc.means wf wf₂ (le₁.trans le₂)
      have normal₂ := normal.mono wf₁ wf₂ le₂
      refine ⟨fun d hd => rest.old (mem_unlessTrivial.2 (.inl hd)), fun d' hd' => ?_, fun pair' hpair c' hc' => ?_⟩
      · rcases rest.arise d' hd' with hd' | ⟨other, pair', hpair, found'⟩
        · rcases mem_unlessTrivial.1 hd' with old | ⟨other, rfl⟩
          · exact .inl old
          · exact .inr ⟨other, pair, List.mem_cons_self, c, means₂, normal₂⟩
        · exact .inr ⟨other, pair', List.mem_cons_of_mem _ hpair, found'⟩
      · rcases List.mem_cons.1 hpair with rfl | hpair
        · obtain rfl : c = c' := Equation.means_unique means₂ hc'
          refine ⟨d, normal₂, ?_⟩
          by_cases isTrivial : d.isTrivial = true
          · exact .inl isTrivial
          · exact .inr (rest.old (mem_unlessTrivial.2 (.inr ⟨eq_false_of_ne_true isTrivial, rfl⟩)))
        · exact rest.all pair' hpair c' hc'

theorem pairsMeet_exact {pairs : List Equation} (h : Checkable sig gt ctx.order s e) (wf : s.WellFormed)
    (clear : ∀ pair ∈ pairs, ∃ c, Clear sig e.workspace.supply s pair c) :
    Leaves e s (pairsMeet ctx pairs) fun yes _ => yes = true ↔ ∀ pair ∈ pairs, ∀ c, s.Means pair c →
      ∃ x, Term.NormalForm (e.top gt s) c.1 x ∧ Term.NormalForm (e.top gt s) c.2 x := by
  induction pairs generalizing e s with
  | nil => exact .pure wf (by simp)
  | cons pair pairs ih =>
      rw [pairsMeet]
      obtain ⟨c, hc⟩ := clear pair List.mem_cons_self
      refine (normalizeSides_exact h.toDecided wf hc).thread fun d e₁ s₁ wf₁ le₁ aside normal => ?_
      obtain ⟨x, y, means, left, right⟩ := normal.exists_means
      have first : ∀ {c'}, s.Means pair c' → c' = c := fun means' => Equation.means_unique means' hc.means
      split
      · rename_i isTrivial
        obtain rfl := (Equation.isTrivial_iff means wf₁).1 isTrivial
        have clear₁ : ∀ pair ∈ pairs, ∃ c, Clear sig e₁.workspace.supply s₁ pair c := by
          intro pair hpair
          obtain ⟨c, hc⟩ := clear pair (List.mem_cons_of_mem _ hpair)
          exact ⟨c, hc.mono aside.later wf wf₁ le₁⟩
        refine (ih (h.aside aside wf wf₁ le₁) wf₁ clear₁).mono fun yes s₂ wf₂ le₂ rest => ?_
        rw [rest, h.top_eq aside wf wf₁ le₁]
        constructor
        · intro meet pair' hpair c' hc'
          rcases List.mem_cons.1 hpair with rfl | hpair
          · exact first hc' ▸ ⟨x, left, right⟩
          · exact meet pair' hpair c' (Equation.means_mono hc' wf wf₁ le₁)
        · intro meet pair' hpair c' hc'
          obtain ⟨c'', hc''⟩ := clear pair' (List.mem_cons_of_mem _ hpair)
          have later := Equation.means_mono hc''.means wf wf₁ le₁
          obtain rfl : c' = c'' := Equation.means_unique hc' later
          exact meet pair' (List.mem_cons_of_mem _ hpair) c' hc''.means
      · rename_i other
        refine .pure wf₁ ⟨(by cases ·), fun meet => ?_⟩
        obtain ⟨z, hx, hy⟩ := meet pair List.mem_cons_self c hc.means
        exact absurd ((Equation.isTrivial_iff means wf₁).2 ((left.unique hx).trans (hy.unique right))) other

theorem superposeAfresh_exact {withEquations : Bool} (h : Checkable sig gt ctx.order s e) (wf : s.WellFormed)
    (has : ∀ donor ∈ e.donors eq withEquations, s.Has sig donor.1 ∧ s.Has sig donor.2) :
    TermM.Ensures e s (superposeAfresh ctx eq withEquations) (fun pairs e' s' => Aside e e' ∧
      Superposer.Finds gt sig e'.workspace.supply s' (e.donors eq withEquations) pairs)
      fun e' _ => Aside e e' := by
  have superposed : TermM.Ensures { workspace := e.workspace } s (superposition ctx e eq withEquations)
      (fun pairs sp' s' => e.workspace.supply.Later sp'.workspace.supply ∧
        Superposer.Finds gt sig sp'.workspace.supply s' (e.donors eq withEquations) pairs)
      fun sp' _ => e.workspace.supply.Later sp'.workspace.supply := by
    have unseen : ∀ d, (Index.empty : Index (Equation × Equation) Unit).contains d = false := by
      simp [Index.contains]
    cases withEquations with
    | false => exact Superposer.superposeAll_exact h.decides h.blind h.distinct unseen wf has
    | true => exact Superposer.superposeAll_exact h.decides h.blind h.distinct unseen wf has
  rw [superposeAfresh]
  refine .bindGet (.bindLift superposed.toStore ?_)
  rintro ⟨outcome, sp⟩ s₁ wf₁ le₁ hout
  refine .bindSet ?_
  cases outcome with
  | error err => exact fail_spec wf₁ ⟨⟨rfl, rfl, rfl, rfl, hout⟩, rfl⟩
  | ok pairs => exact .pure wf₁ ⟨⟨⟨rfl, rfl, rfl, rfl, hout.1⟩, rfl⟩, hout.2⟩

/-- All critical pairs of two stored donors join. -/
def DonorsJoin (gt : Term → Term → Prop) (f : Term → Term) (W : Theory) (s : Store)
    (donors : Equation × Equation) : Prop :=
  ∀ gd ab p c, s.Means donors.1 gd → s.Means donors.2 ab → Critical gt gd ab p c → Joins f W c

theorem donorsJoin_iff {donors : Equation × Equation} (has : s.Has sig donors.1 ∧ s.Has sig donors.2)
    (wf : s.WellFormed) (wf' : s'.WellFormed) (le : s ≤ s') :
    DonorsJoin gt f W s' donors ↔ DonorsJoin gt f W s donors := by
  obtain ⟨⟨g, d, hgd, -⟩, a, b, hab, -⟩ := has
  have hgd' := Equation.means_mono hgd wf wf' le
  have hab' := Equation.means_mono hab wf wf' le
  constructor
  · intro join gd ab p c meansG meansA
    obtain rfl := Equation.means_unique meansG hgd
    obtain rfl := Equation.means_unique meansA hab
    exact join _ _ p c hgd' hab'
  · intro join gd ab p c meansG meansA
    obtain rfl := Equation.means_unique meansG hgd'
    obtain rfl := Equation.means_unique meansA hab'
    exact join _ _ p c hgd hab

/-- What an equation of the worklist subsumes is an instance of one. -/
theorem subsumed_iff {es : List Equation} {x y : Term} (has : s.HasAll sig es) (means : s.Means eq (x, y)) :
    Subsumed s es eq ↔ Instance (s.theory es) x y := by
  constructor
  · rintro ⟨d, hd, l, r, θ, means', meansC⟩
    obtain ⟨rfl, rfl⟩ := Prod.mk.inj (Equation.means_unique means meansC)
    exact ⟨l, r, θ, Store.mem_theory hd means', rfl, rfl⟩
  · rintro ⟨l, r, θ, hl, rfl, rfl⟩
    obtain ⟨d, hd, means', -⟩ := has.exists_means hl
    exact ⟨d, hd, l, r, θ, means', means⟩

/-- The pairs that are left after normalizing and subsumption meet if and only if all critical pairs join. -/
theorem left_meet_iff {es pairs reduced left : List Equation} {donors : List (Equation × Equation)}
    {supply : Supply} (finds : Superposer.Finds gt sig supply s donors pairs)
    (normal : Normalized f s' [] pairs reduced) (equivariant : Term.Equivariant f) (wf : s.WellFormed)
    (wf' : s'.WellFormed) (le : s ≤ s') (has : s'.HasAll sig es)
    (mem : ∀ d, d ∈ left ↔ d ∈ reduced ∧ ¬ Subsumed s' es d) :
    (∀ d ∈ left, ∀ c, s'.Means d c → ∃ x, Term.NormalForm f c.1 x ∧ Term.NormalForm f c.2 x) ↔
      ∀ donor ∈ donors, DonorsJoin gt f (s'.theory es) s donor := by
  constructor
  · intro meet donor hdonor gd ab p c hgd hab critical
    obtain ⟨pair, hpair, c', means, critical'⟩ := finds.all donor hdonor gd ab p c hgd hab critical
    refine Joins.of_variants equivariant ?_ (critical'.variants critical)
    obtain ⟨d, normalPair, found⟩ := normal.all pair hpair c' (Equation.means_mono means wf wf' le)
    obtain ⟨x, y, meansD, left, right⟩ := normalPair.exists_means
    rw [joins_iff left right]
    by_cases same : x = y
    · exact .inl same
    have mem' := found.resolve_left fun isTrivial => same ((Equation.isTrivial_iff meansD wf').1 isTrivial)
    by_cases subsumed : Subsumed s' es d
    · exact .inr ((subsumed_iff has meansD).1 subsumed)
    · obtain ⟨z, hx, hy⟩ := meet d ((mem d).2 ⟨mem', subsumed⟩) _ meansD
      exact .inl ((hx.unique (.refl left.fixed)).symm.trans (hy.unique (.refl right.fixed)))
  · -- otherwise nothing is left
    intro join d hd
    exfalso
    obtain ⟨mem', other⟩ := (mem d).1 hd
    obtain ⟨differ, pair, hpair, c, means, normalPair⟩ := (normal.arise d mem').resolve_left List.not_mem_nil
    obtain ⟨donor, hdonor, gd, ab, p, c', hgd, hab, critical, clear⟩ := finds.critical pair hpair
    obtain rfl := Equation.means_unique means (Equation.means_mono clear.means wf wf' le)
    obtain ⟨x, y, meansD, left, right⟩ := normalPair.exists_means
    rcases (joins_iff left right).1 (join donor hdonor gd ab p c hgd hab critical) with same | isInstance
    · rw [(Equation.isTrivial_iff meansD wf').2 same] at differ
      cases differ
    · exact other ((subsumed_iff has meansD).2 isInstance)

/-- What is left of pairs after normalizing and subsumption meets if and only if all critical pairs of the
donors join. -/
theorem pairsMeet_thread {β : Type} {pairs : List Equation} {donors : List (Equation × Equation)}
    {next : Bool → EngineM β} {R : β → Store → Prop} (h : Checkable sig gt ctx.order s e) (wf : s.WellFormed)
    (finds : Superposer.Finds gt sig e.workspace.supply s donors pairs)
    (then_ : ∀ yes e' s', s'.WellFormed → s ≤ s' → Aside e e' →
      (yes = true ↔ ∀ donor ∈ donors, DonorsJoin gt (e.top gt s) (s.theory e.equations) s donor) →
      Leaves e' s' (next yes) R) :
    Leaves e s (do
      let reduced ← normalizePairs ctx [] pairs
      let left ← filterSubsumed (← get).equations reduced
      next (← pairsMeet ctx left)) R := by
  have clear : ∀ pair ∈ pairs, ∃ c, Clear sig e.workspace.supply s pair c := by
    intro pair hpair
    obtain ⟨-, -, -, -, -, c, -, -, -, clear⟩ := finds.critical pair hpair
    exact ⟨c, clear⟩
  have equivariant : Term.Equivariant (e.top gt s) := top_equivariant h.blind
  refine (normalizePairs_exact h wf clear).thread fun reduced e₁ s₁ wf₁ le₁ aside normal => ?_
  have h₁ := h.aside aside wf wf₁ le₁
  have clearReduced := normal.clear equivariant h.top_over wf wf₁ le₁ clear
  refine .bindGet (.bindLift (filterSubsumed_spec wf₁ h₁.equations (hasAll_of_clear clearReduced)) ?_)
  rintro left s₂ wf₂ le₂ ⟨same, mem⟩
  have clearLeft : ∀ d ∈ left, ∃ c, Clear sig e₁.workspace.supply s₂ d c := by
    intro d hd
    obtain ⟨c, hc⟩ := clearReduced d ((mem d).1 hd).1
    exact ⟨c, hc.mono aside.later wf₁ wf₂ le₂⟩
  refine (pairsMeet_exact (h₁.aside (.refl e₁) wf₁ wf₂ le₂) wf₂ clearLeft).thread ?_
  intro yes e₃ s₃ wf₃ le₃ aside₃ meet
  refine then_ yes e₃ s₃ wf₃ (le₁.trans (le₂.trans le₃)) (aside.trans aside₃) ?_
  have leftMeet := left_meet_iff finds normal equivariant wf wf₁ le₁ h₁.equations mem
  rw [h.worklist_eq aside wf wf₁ le₁] at leftMeet
  rw [meet, h₁.top_eq (.refl e₁) wf₁ wf₂ le₂, h.top_eq aside wf wf₁ le₁, ← leftMeet]
  simp only [Equation.means_same same]

theorem sourcesJoin_exact {sources : List (Equation × Bool)} (h : Checkable sig gt ctx.order s e)
    (wf : s.WellFormed) (has : ∀ donor ∈ e.allDonors sources, s.Has sig donor.1 ∧ s.Has sig donor.2) :
    Leaves e s (sourcesJoin ctx sources) fun yes _ => yes = true ↔ ∀ donor ∈ e.allDonors sources,
      DonorsJoin gt (e.top gt s) (s.theory e.equations) s donor := by
  induction sources generalizing e s with
  | nil => exact .pure wf (by simp [allDonors])
  | cons source sources ih =>
      obtain ⟨eq, withEquations⟩ := source
      have split_ : e.allDonors ((eq, withEquations) :: sources) =
          e.donors eq withEquations ++ e.allDonors sources := rfl
      rw [split_, List.forall_mem_append] at has
      simp only [split_, List.forall_mem_append]
      rw [sourcesJoin]
      refine TermM.Ensures.bind (superposeAfresh_exact h wf has.1) ?_
      rintro pairs e₁ s₁ wf₁ le₁ ⟨aside₁, finds⟩
      refine Leaves.after aside₁ (pairsMeet_thread (h.aside aside₁ wf wf₁ le₁) wf₁ finds ?_)
      intro yes e₂ s₂ wf₂ le₂ aside₂ meet
      have aside := aside₁.trans aside₂
      have le := le₁.trans le₂
      have here : yes = true ↔ ∀ donor ∈ e.donors eq withEquations,
          DonorsJoin gt (e.top gt s) (s.theory e.equations) s donor := by
        rw [meet, h.worklist_eq aside₁ wf wf₁ le₁, h.top_eq aside₁ wf wf₁ le₁]
        exact forall₂_congr fun donor hdonor => donorsJoin_iff (has.1 donor hdonor) wf wf₁ le₁
      split
      · rename_i isTrue
        have same := aside.toBeside.allDonors sources
        refine (ih (h.aside aside wf wf₂ le) wf₂ fun donor hdonor => ?_).mono fun yes' _ _ _ rest => ?_
        · obtain ⟨outer, inner⟩ := has.2 donor (same ▸ hdonor)
          exact ⟨outer.mono wf wf₂ le, inner.mono wf wf₂ le⟩
        · rw [rest, same, h.top_eq aside wf wf₂ le, h.worklist_eq aside wf wf₂ le,
            iff_true_intro (here.1 isTrue), true_and]
          exact forall₂_congr fun donor hdonor => donorsJoin_iff (has.2 donor hdonor) wf wf₂ le
      · rename_i isFalse
        exact .pure wf₂ ⟨(by cases ·), fun join => absurd (here.2 join.1) isFalse⟩

theorem Directed.mem_directions {d : Equation} (h : e.Directed d) (means : s.Means d c) :
    c ∈ Gauge.Directions (s.theory e.rules) (s.theory e.equations) := by
  rcases h with rule | ⟨eq, heq, rfl | rfl⟩
  · exact .inl (Store.mem_theory rule means)
  · exact .inr (.inl (Store.mem_theory heq means))
  · exact .inr (.inr (Store.mem_theory heq (Equation.means_reversed (e := eq.reversed) means)))

theorem directed_of_mem_allDonors {pair : Equation × Equation} (h : pair ∈ e.allDonors e.sources) :
    e.Directed pair.1 ∧ e.Directed pair.2 := by
  obtain ⟨source, hsource, mem⟩ := List.mem_flatMap.1 h
  rcases List.mem_append.1 hsource with hsource | hsource
  · obtain ⟨eq, heq, rfl⟩ := List.mem_map.1 hsource
    have turned : ∀ d ∈ e.equations, e.Directed d ∧ e.Directed d.reversed := fun d hd =>
      ⟨.inr ⟨d, hd, .inl rfl⟩, .inr ⟨d, hd, .inr rfl⟩⟩
    exact forall_donors (turned eq heq).1 (fun _ => .inl) (fun _ => ⟨(turned eq heq).2, turned⟩) pair mem
  · obtain ⟨rule, hrule, rfl⟩ := List.mem_map.1 hsource
    exact forall_donors (.inl hrule) (fun _ => .inl) (fun no => by cases no) pair mem

/-- All critical pairs of the donors of the check join if and only if those of the directed rules and equations
do. -/
theorem Checkable.allJoin_iff (h : Checkable sig gt o s e) :
    (∀ pair ∈ e.allDonors e.sources, DonorsJoin gt f (s.theory e.equations) s pair) ↔
      AllJoin gt f (s.theory e.rules) (s.theory e.equations) := by
  constructor
  · intro join gd hgd ab hab p c critical
    obtain ⟨d, hd, meansD⟩ := exists_directed h.rules h.equations hgd
    obtain ⟨d', hd', meansD'⟩ := exists_directed h.rules h.equations hab
    exact join (d, d') (hd.mem_allDonors hd') gd ab p c meansD meansD' critical
  · intro join pair mem gd ab p c meansG meansA critical
    obtain ⟨outer, inner⟩ := directed_of_mem_allDonors mem
    exact join gd (outer.mem_directions meansG) ab (inner.mem_directions meansA) p c critical

theorem allPairsJoin_exact (h : Checkable sig gt ctx.order s e) (wf : s.WellFormed) :
    Leaves e s (allPairsJoin ctx) fun yes _ => yes = true ↔
      AllJoin gt (e.top gt s) (s.theory e.rules) (s.theory e.equations) := by
  have has : ∀ {d}, e.Directed d → s.Has sig d := by
    rintro d (rule | ⟨eq, heq, rfl | rfl⟩)
    · exact h.rules d rule
    · exact h.equations d heq
    · exact (h.equations eq heq).reversed
  rw [allPairsJoin]
  refine .bindGet ((sourcesJoin_exact h wf fun pair mem => ?_).mono fun yes _ _ _ join => ?_)
  · exact (directed_of_mem_allDonors mem).imp has has
  · rw [join]
    exact h.allJoin_iff

theorem allUnorientable_exact {es : List Equation} (answers : ctx.order.Decides sig gt) (wf : s.WellFormed)
    (has : s.HasAll sig es) :
    Leaves e s (allUnorientable ctx es) fun yes _ => yes = true ↔ Unoriented gt (s.theory es) := by
  induction es generalizing e s with
  | nil => exact .pure wf (by simp [Unoriented, Store.theory_nil])
  | cons d es ih =>
      obtain ⟨l, r, means, hl, hr⟩ := has d List.mem_cons_self
      have rest := has.of_subset (List.subset_cons_self d es)
      have split_ : Unoriented gt (s.theory (d :: es)) ↔
          (¬ gt l r ∧ ¬ gt r l) ∧ Unoriented gt (s.theory es) := by
        constructor
        · intro none
          exact ⟨none l r (Store.mem_theory List.mem_cons_self means),
            fun x y hx => none x y (Store.theory_mono (List.subset_cons_self d es) hx)⟩
        · rintro ⟨here, later⟩ x y hx
          rcases (Store.mem_theory_cons means).1 hx with ⟨rfl, rfl⟩ | hx
          · exact here
          · exact later x y hx
      rw [allUnorientable]
      have asked : Leaves e s (orientable ctx d) fun yes _ => yes = true ↔ gt l r ∨ gt r l := by
        refine onWorkspace_spec ((Workspace.askEither_answers answers wf means.1 means.2 hl hr).mono ?_
          fun _ _ _ _ h => h)
        rintro yes w' s' - - ⟨same, up, none⟩
        refine ⟨same, fun isYes => (up isYes).imp (·.1 rfl) (·.1 rfl), fun either => ?_⟩
        by_contra isNo
        obtain ⟨notLeft, notRight⟩ := none (eq_false_of_ne_true isNo)
        exact either.elim (fun h => by cases notLeft.2 h) fun h => by cases notRight.2 h
      refine asked.bind fun yes e₁ s₁ wf₁ le₁ hyes => ?_
      split
      · rename_i isYes
        exact .pure wf₁ ⟨(by cases ·), fun none => absurd (hyes.1 isYes) (not_or.2 (split_.1 none).1)⟩
      · rename_i isNo
        refine (ih wf₁ (rest.mono wf wf₁ le₁)).mono fun all s₂ _ _ later => ?_
        rw [later, rest.theory_eq wf wf₁ le₁, split_]
        exact ⟨fun none => ⟨not_or.1 fun either => isNo (hyes.2 either), none⟩, fun none => none.2⟩

/-- What makes the check say yes: there are no equations, or none of them has a direction and all critical pairs
join. -/
def Closes (gt : Term → Term → Prop) (s : Store) (e : Engine) : Prop :=
  e.equations = [] ∨ Unoriented gt (s.theory e.equations) ∧
    AllJoin gt (e.top gt s) (s.theory e.rules) (s.theory e.equations)

/-- A check that does not fail says what it should, and sets the status to that. -/
theorem checkTerminal_exact (h : Checkable sig gt ctx.order s e) (wf : s.WellFormed)
    (running : e.status = .running) :
    TermM.Ensures e s (checkTerminal ctx) (fun yes e' _ => (yes = true ↔ Closes gt s e) ∧
      e'.status = if yes then if e.equations = [] then .complete else .groundComplete else .running)
      fun _ _ => True := by
  rw [checkTerminal]
  refine .bindGet ?_
  simp only [running]
  refine .bindGet ?_
  split
  · rename_i empty
    have none := List.isEmpty_iff.1 empty
    exact .bindModify (.pure wf ⟨iff_of_true rfl (.inl none), by simp [none]⟩)
  · rename_i some
    have other : e.equations ≠ [] := fun none => some (List.isEmpty_iff.2 none)
    rw [Closes, or_iff_right other]
    refine (TermM.Ensures.mono (allUnorientable_exact h.decides wf h.equations) (fun _ _ _ _ _ h => h)
      fun _ _ _ _ _ => trivial).bind ?_
    rintro yes e₁ s₁ wf₁ le₁ ⟨aside₁, hyes⟩
    have running₁ := aside₁.status.trans running
    split
    · rename_i isNo
      rw [← hyes]
      exact .pure wf₁ ⟨by simpa using fun isYes => absurd isYes (by simpa using isNo), by simp [running₁]⟩
    · rename_i isYes
      have h₁ := h.aside aside₁ wf wf₁ le₁
      refine (poisonOnError_spec (allPairsJoin_exact h₁ wf₁) fun _ _ _ _ _ => trivial).bind ?_
      rintro joined e₂ s₂ wf₂ le₂ ⟨aside₂, hjoined⟩
      rw [h.top_eq aside₁ wf wf₁ le₁, h.worklist_eq aside₁ wf wf₁ le₁, aside₁.rules,
        h.rules.theory_eq wf wf₁ le₁] at hjoined
      rw [← hyes, ← hjoined]
      split
      · rename_i isNo
        have running₂ := aside₂.status.trans running₁
        exact .pure wf₂ ⟨by simpa using fun _ => by simpa using isNo, by simp [running₂]⟩
      · rename_i isTrue
        exact .bindModify (.pure wf₂ ⟨iff_of_true rfl ⟨by simpa using isYes, by simpa using isTrue⟩, by simp⟩)

end Engine
end OrderedCompletion
