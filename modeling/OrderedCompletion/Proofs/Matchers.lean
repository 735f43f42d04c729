import OrderedCompletion.Proofs.Runs

/-! Matching yields the only substitution of the variables of the patterns that takes them to the targets. -/

namespace OrderedCompletion

namespace Store

variable {s s' : Store} {σ : Subst} {θ : Var → Term} {v : Var} {pairs : List (Ref × Ref)}

/-- A variable occurs in the pattern of a pair. -/
def InPattern (s : Store) (pairs : List (Ref × Ref)) (v : Var) : Prop :=
  ∃ pair ∈ pairs, v ∈ (s.term pair.1).vars

/-- Replacing variables takes the pattern of every pair to its target. -/
def Carries (s : Store) (pairs : List (Ref × Ref)) (σ : Subst) : Prop :=
  ∀ pair ∈ pairs, s.Ensures (apply σ pair.1) fun out _ => out = pair.2

/-- No other bindings of exactly the variables of the patterns take the patterns to the targets. -/
structure OnlyMatcher (s : Store) (pairs : List (Ref × Ref)) (σ : Subst) : Prop where
  known : s.Knows σ
  carries : s.Carries pairs σ
  domain : ∀ v, σ.isBound v = true ↔ s.InPattern pairs v
  only : ∀ σ', s.Knows σ' → (∀ v, σ'.isBound v = true ↔ s.InPattern pairs v) →
    s.Carries pairs σ' → ∀ v, σ'.find? v = σ.find? v
  determined : ∀ θ, (∀ pair ∈ pairs, s.Takes pair θ) ↔ ∀ v, s.InPattern pairs v → θ v = s.image σ v

theorem carries_iff (wf : s.WellFormed) (known : ∀ pair ∈ pairs, pair.1 < s.size ∧ pair.2 < s.size)
    (hσ : s.Knows σ) : s.Carries pairs σ ↔ ∀ pair ∈ pairs, s.Takes pair (s.image σ) := by
  have applied : ∀ pair ∈ pairs, s.Ensures (apply σ pair.1) fun out _ =>
      out = pair.2 ↔ s.Takes pair (s.image σ) := by
    intro pair hpair
    obtain ⟨small, small'⟩ := known pair hpair
    refine (apply_spec wf hσ.binds (denotes_term small)).mono fun out s' wf' le' hout => ?_
    exact hout.eq_iff ((denotes_term small').mono wf wf' le') wf'
  constructor
  · intro carries pair hpair
    exact (applied pair hpair).2.2.1 (carries pair hpair).2.2
  · intro takes pair hpair
    exact (applied pair hpair).mono fun _ _ _ _ h => h.2 (takes pair hpair)

theorem takes_congr {η : Var → Term} (same : ∀ v, s.InPattern pairs v → θ v = η v)
    (takes : ∀ pair ∈ pairs, s.Takes pair θ) : ∀ pair ∈ pairs, s.Takes pair η := by
  intro pair hpair
  rw [Takes, ← takes pair hpair]
  exact Term.subst_congr fun v hv => (same v ⟨pair, hpair, hv⟩).symm

theorem eq_of_takes {η : Var → Term} (takes : ∀ pair ∈ pairs, s.Takes pair θ)
    (takes' : ∀ pair ∈ pairs, s.Takes pair η) (hv : s.InPattern pairs v) : θ v = η v := by
  obtain ⟨pair, hpair, hv⟩ := hv
  exact Term.eq_of_subst_eq ((takes pair hpair).trans (takes' pair hpair).symm) v hv

theorem Refines.onlyMatcher (wf : s.WellFormed)
    (known : ∀ pair ∈ pairs, pair.1 < s.size ∧ pair.2 < s.size)
    (h : Refines s.Knows s.Agrees .empty (fun θ => ∀ pair ∈ pairs, s.Takes pair θ) (some σ)) :
    s.OnlyMatcher pairs σ := by
  have takes : ∀ pair ∈ pairs, s.Takes pair (s.image σ) := h.solves_image
  have domain : ∀ v, σ.isBound v = true ↔ s.InPattern pairs v := by
    intro v
    rw [Subst.isBound, Option.isSome_iff_exists]
    constructor
    · rintro ⟨q, hq⟩
      exact h.of_bound (fun θ η same solved => takes_congr same solved) hq
    · exact h.exists_bound fun θ η first second w hw => eq_of_takes first second hw
  refine ⟨h.1, (carries_iff wf known h.1).2 takes, domain, fun σ' hσ' domain' carries v => ?_, ?_⟩
  · have takes' := (carries_iff wf known hσ').1 carries
    by_cases inside : s.InPattern pairs v
    · obtain ⟨q, hq⟩ := Option.isSome_iff_exists.1 ((domain v).2 inside)
      obtain ⟨q', hq'⟩ := Option.isSome_iff_exists.1 ((domain' v).2 inside)
      have same := eq_of_takes takes' takes inside
      rw [image_bound hq, image_bound hq'] at same
      rw [hq, hq', (denotes_term (hσ' v q' hq')).inj ⟨h.1 v q hq, same.symm⟩ wf]
    · rw [Subst.find?_eq_none.2 (Bool.eq_false_iff.2 (mt (domain v).1 inside)),
        Subst.find?_eq_none.2 (Bool.eq_false_iff.2 (mt (domain' v).1 inside))]
  · exact fun θ => ⟨fun other v hv => eq_of_takes other takes hv,
      fun same => takes_congr (fun v hv => (same v hv).symm) takes⟩

theorem matchPairs?_onlyMatcher (wf : s.WellFormed)
    (known : ∀ pair ∈ pairs, pair.1 < s.size ∧ pair.2 < s.size) :
    s.Ensures (matchPairs? pairs).run fun o s' => SameTerms s s' ∧
      (o.isSome = true ↔ ∃ θ, ∀ pair ∈ pairs, s.Takes pair θ) ∧
      ∀ σ, o = some σ → s'.OnlyMatcher pairs σ := by
  refine (matchPairs?_spec wf known).mono fun o s' wf' _ h => ⟨h.1, ?_⟩
  have known' : ∀ pair ∈ pairs, pair.1 < s'.size ∧ pair.2 < s'.size := by
    rw [h.1.size]
    exact known
  have same : s'.Takes = s.Takes := by
    funext pair θ
    rw [Takes, Takes, h.1.term, h.1.term]
  cases o with
  | none =>
      constructor
      · constructor
        · intro no
          cases no
        · rintro ⟨θ, hθ⟩
          exact absurd hθ (h.2 θ fun v q hv => by cases hv)
      · intro σ eq
        cases eq
  | some σ =>
      refine ⟨⟨fun _ => ⟨s.image σ, h.2.solves_image⟩, fun _ => rfl⟩, ?_⟩
      rintro _ ⟨⟩
      refine Refines.onlyMatcher wf' known' ?_
      rw [h.1.knows, h.1.agrees, same]
      exact h.2

end Store

namespace Equation

variable {s : Store} {g c : Equation}

/-- The second equation is an instance of the first one, side for side. -/
def IsInstance (s : Store) (g c : Equation) : Prop :=
  ∃ θ, (s.term g.lhs).subst θ = s.term c.lhs ∧ (s.term g.rhs).subst θ = s.term c.rhs

theorem instance_reversed : IsInstance s g.reversed c.reversed ↔ IsInstance s g c :=
  exists_congr fun _ => and_comm

theorem subsumes_instance (wf : s.WellFormed) (hg : g.lhs < s.size ∧ g.rhs < s.size)
    (hc : c.lhs < s.size ∧ c.rhs < s.size) : (g.subsumes c s).1 = true ↔ IsInstance s g c :=
  (subsumes_spec wf ⟨Store.denotes_term hg.1, Store.denotes_term hg.2⟩
    ⟨Store.denotes_term hc.1, Store.denotes_term hc.2⟩).2.2.2

theorem subsumesEither_instance (wf : s.WellFormed) (hg : g.lhs < s.size ∧ g.rhs < s.size)
    (hc : c.lhs < s.size ∧ c.rhs < s.size) :
    (g.subsumesEither c s).1 = true ↔ IsInstance s g c ∨ IsInstance s g c.reversed := by
  have spec := (subsumesEither_spec wf ⟨Store.denotes_term hg.1, Store.denotes_term hg.2⟩
    ⟨Store.denotes_term hc.1, Store.denotes_term hc.2⟩).2.2.2
  exact spec.trans exists_or

end Equation

/-- Matching succeeds exactly if there is a substitution for the patterns, and yields the only one of their
variables. So an equation subsumes exactly its instances, side for side, and subsumption in either direction
is subsumption with any of the signs. -/
theorem Store.matching_exact {s : Store} (wf : s.WellFormed) {pairs : List (Ref × Ref)}
    (known : ∀ pair ∈ pairs, pair.1 < s.size ∧ pair.2 < s.size) {g c : Equation}
    (hg : g.lhs < s.size ∧ g.rhs < s.size) (hc : c.lhs < s.size ∧ c.rhs < s.size) :
    (s.Ensures (matchPairs? pairs).run fun o s' => SameTerms s s' ∧
      (o.isSome = true ↔ ∃ θ, ∀ pair ∈ pairs, s.Takes pair θ) ∧
      ∀ σ, o = some σ → s'.OnlyMatcher pairs σ) ∧
    ((g.subsumes c s).1 = true ↔ Equation.IsInstance s g c) ∧
    (g.subsumesEither c s).1 = ((g.subsumes c s).1 || (g.subsumes c.reversed s).1 ||
      (g.reversed.subsumes c s).1 || (g.reversed.subsumes c.reversed s).1) := by
  refine ⟨matchPairs?_onlyMatcher wf known, Equation.subsumes_instance wf hg hc, ?_⟩
  have crossed : Equation.IsInstance s g.reversed c ↔ Equation.IsInstance s g c.reversed :=
    Equation.instance_reversed (g := g) (c := c.reversed)
  rw [Bool.eq_iff_iff, Equation.subsumesEither_instance wf hg hc]
  simp only [Bool.or_eq_true, Equation.subsumes_instance wf hg hc,
    Equation.subsumes_instance wf hg (c := c.reversed) hc.symm,
    Equation.subsumes_instance wf (g := g.reversed) hg.symm hc,
    Equation.subsumes_instance wf (g := g.reversed) hg.symm (c := c.reversed) hc.symm,
    Equation.instance_reversed, crossed]
  tauto

namespace Store

/-- Two patterns with one variable twice, and targets that have the same variables. -/
def repeated : List Equation × Store :=
  Equation.listOfTerms [
    (.app (.symbol ⟨0⟩) [.var 0, .var 1], .app (.symbol ⟨0⟩) [.app (.symbol ⟨1⟩) [.var 1], .var 0]),
    (.var 0, .app (.symbol ⟨1⟩) [.var 1])] .empty

theorem repeated_wellFormed : repeated.2.WellFormed := by
  rw [repeated]
  apply wellFormed_listOfTerms
  simp [Term.over_app_iff, Signature.full, Term.Over.var]

/-- The patterns match, and the second equation is not an instance of the first one. -/
theorem matching_exact_repeated :
    (∃ σ, ((matchPairs? (repeated.1.map fun e => (e.lhs, e.rhs))).run repeated.2).1 = some σ ∧
      OnlyMatcher ((matchPairs? (repeated.1.map fun e => (e.lhs, e.rhs))).run repeated.2).2
        (repeated.1.map fun e => (e.lhs, e.rhs)) σ) ∧
    ¬ Equation.IsInstance repeated.2 (repeated.1.getD 0 default) (repeated.1.getD 1 default) := by
  have known : ∀ pair ∈ repeated.1.map fun e => (e.lhs, e.rhs),
      pair.1 < repeated.2.size ∧ pair.2 < repeated.2.size := by decide +kernel
  obtain ⟨⟨-, -, -, -, only⟩, subsumes, -⟩ := matching_exact (g := repeated.1.getD 0 default)
    (c := repeated.1.getD 1 default) repeated_wellFormed known (by decide +kernel) (by decide +kernel)
  obtain ⟨σ, found⟩ := Option.isSome_iff_exists.1 (by decide +kernel :
    ((matchPairs? (repeated.1.map fun e => (e.lhs, e.rhs))).run repeated.2).1.isSome = true)
  exact ⟨⟨σ, found, only σ found⟩, fun yes => absurd (subsumes.2 yes) (by decide +kernel)⟩

end Store
end OrderedCompletion
