import OrderedCompletion.Proofs.Runs
import OrderedCompletion.Proofs.Stacks

/-! Unification ends and yields an idempotent most general unifier. -/

namespace OrderedCompletion

namespace Store

variable {s s' : Store} {σ : Subst} {θ : Var → Term}

/-- A variable occurs in a term of a pair. -/
def Mentions (s : Store) (pairs : List (Ref × Ref)) (v : Var) : Prop :=
  ∃ pair ∈ pairs, v ∈ (s.term pair.1).vars ∨ v ∈ (s.term pair.2).vars

/-- The bindings, which lead into a later store, are a most general unifier of the pairs that leaves no
variable it binds, and no variables are in it but those of the pairs. -/
structure IdempotentMgu (s s' : Store) (pairs : List (Ref × Ref)) (σ : Subst) : Prop where
  known : s'.Knows σ
  unifies : ∀ pair ∈ pairs, s.Unifies pair (s'.image σ)
  equates : ∀ pair ∈ pairs, s'.Ensures (do
    let l ← apply σ pair.1
    let r ← apply σ pair.2
    return decide (l = r)) fun yes _ => yes = true
  idempotent : ∀ v q, σ.find? v = some q → ∀ w ∈ (s'.term q).vars, σ.find? w = none
  mentions : ∀ v q, σ.find? v = some q →
    s.Mentions pairs v ∧ ∀ w ∈ (s'.term q).vars, s.Mentions pairs w
  general : ∀ τ, (∀ pair ∈ pairs, s.Unifies pair τ) → ∀ v, (s'.image σ v).subst τ = τ v

variable {pairs : List (Ref × Ref)}

/-- A stored term with variables of the pairs only. -/
def Inside (s : Store) (pairs : List (Ref × Ref)) (t : Term) : Prop :=
  (∃ r, s.Denotes r t) ∧ ∀ v ∈ t.vars, s.Mentions pairs v

theorem hereditary_inside (wf : s.WellFormed) : s.Hereditary (s.Inside pairs) where
  arg := fun h ht =>
    ⟨Denotes.exists_arg wf h.1 ht, fun v hv => h.2 v (Term.mem_vars_app.2 ⟨_, ht, hv⟩)⟩
  stored := fun h => h.1

theorem inside_inputs (known : ∀ pair ∈ pairs, pair.1 < s.size ∧ pair.2 < s.size) :
    ∀ pair ∈ pairs, s.Inside pairs (s.term pair.1) ∧ s.Inside pairs (s.term pair.2) :=
  fun pair hpair =>
    ⟨⟨⟨_, denotes_term (known pair hpair).1⟩, fun _ hv => ⟨pair, hpair, .inl hv⟩⟩,
      ⟨_, denotes_term (known pair hpair).2⟩, fun _ hv => ⟨pair, hpair, .inr hv⟩⟩

theorem Binds.image_eq (h : s.Binds σ θ) : s.image σ = θ := by
  funext v
  cases hv : σ.find? v with
  | none => rw [image_free hv, h.free v hv]
  | some q => rw [image_bound hv, (h.bound v q hv).2]

/-- The loops of unification end, in one way. They fail exactly if there is no unifier, and find an idempotent most
general one otherwise. -/
theorem unifyPairs?_idempotentMgu (wf : s.WellFormed)
    (known : ∀ pair ∈ pairs, pair.1 < s.size ∧ pair.2 < s.size) :
    (∀ o s', Attempts s pairs o s' ↔ (unifyPairs? pairs).run s = (o, s')) ∧
    s.Ensures (unifyPairs? pairs).run fun o s' =>
      (o = none ↔ ∀ τ, ¬ ∀ pair ∈ pairs, s.Unifies pair τ) ∧
      ∀ σ, o = some σ → IdempotentMgu s s' pairs σ := by
  have ends := (unifyPairs?_attempts wf known).2.2
  refine ⟨fun o s' => ⟨fun ran => Prod.ext_iff.2 (ends.unique ran), fun same => ?_⟩, ?_⟩
  · rwa [same] at ends
  refine (unifyPairs?_resolves wf (hereditary_inside wf) known (inside_inputs known)).mono ?_
  intro o s' wf' le' h
  cases o with
  | none => exact ⟨⟨fun _ => h, fun _ => rfl⟩, nofun⟩
  | some σ =>
      obtain ⟨ω, θ, hθ, ranges, binds, free, sols⟩ := h
      have unifies := (sols θ).1 hθ.solves
      refine ⟨⟨nofun, fun nothing => absurd unifies (nothing θ)⟩, ?_⟩
      rintro _ ⟨⟩
      have kept : ∀ v q, σ.find? v = some q → s.Mentions pairs v := by
        intro v q hv
        cases hω : ω.find? v with
        | none =>
            rw [free v hω] at hv
            cases hv
        | some p => exact (ranges v p hω).1.2 v (Term.mem_vars_var.2 rfl)
      have ends : ∀ v q, σ.find? v = some q → s'.term q = θ v := fun v q hv => (binds.bound v q hv).2
      refine ⟨fun v q hv => (binds.bound v q hv).1, ?_, ?_, fun v q hv w hw => ?_, fun v q hv => ?_, ?_⟩
      · exact binds.image_eq ▸ unifies
      · intro pair hpair
        obtain ⟨small, small'⟩ := known pair hpair
        have left := (denotes_term small).mono wf wf' le'
        have right := (denotes_term small').mono wf wf' le'
        refine (apply_spec wf' binds left).bind fun l s₁ wf₁ le₁ hl => ?_
        refine (apply_spec wf₁ (binds.mono wf' wf₁ le₁) (right.mono wf' wf₁ le₁)).bind ?_
        intro r s₂ wf₂ le₂ hr
        refine .pure wf₂ (decide_eq_true ?_)
        exact ((hl.mono wf₁ wf₂ le₂).eq_iff hr wf₂).2 (unifies pair hpair)
      · rw [ends v q hv] at hw
        exact free w (hθ.idempotent hw)
      · rw [ends v q hv]
        exact ⟨kept v q hv, hθ.vars_inside (fun x p hx => (ranges x p hx).2.2) (kept v q hv)⟩
      · rw [binds.image_eq]
        exact fun τ hτ => hθ.general ((sols τ).2 hτ)

/-- Two equations whose sides unify by one binding that leads to another one. -/
def chained : List Equation × Store :=
  Equation.listOfTerms [
    (.app (.symbol ⟨0⟩) [.var 0, .var 1], .app (.symbol ⟨0⟩) [.var 1, .app (.symbol ⟨1⟩) [.var 2]]),
    (.var 2, .app (.symbol ⟨2⟩) [])] .empty

theorem chained_wellFormed : chained.2.WellFormed := by
  rw [chained]
  apply wellFormed_listOfTerms
  simp [Term.over_app_iff, Signature.full, Term.Over.var]

theorem unifyPairs?_idempotentMgu_chained :
    ∃ σ, ((unifyPairs? (chained.1.map fun e => (e.lhs, e.rhs))).run chained.2).1 = some σ ∧
      Attempts chained.2 (chained.1.map fun e => (e.lhs, e.rhs)) (some σ)
        ((unifyPairs? (chained.1.map fun e => (e.lhs, e.rhs))).run chained.2).2 ∧
      IdempotentMgu chained.2 ((unifyPairs? (chained.1.map fun e => (e.lhs, e.rhs))).run chained.2).2
        (chained.1.map fun e => (e.lhs, e.rhs)) σ := by
  have known : ∀ pair ∈ chained.1.map fun e => (e.lhs, e.rhs),
      pair.1 < chained.2.size ∧ pair.2 < chained.2.size := by decide +kernel
  obtain ⟨ran, -, -, -, mgu⟩ := unifyPairs?_idempotentMgu chained_wellFormed known
  obtain ⟨σ, found⟩ := Option.isSome_iff_exists.1 (by decide +kernel :
    ((unifyPairs? (chained.1.map fun e => (e.lhs, e.rhs))).run chained.2).1.isSome = true)
  have whole : ∀ out : Option Subst × Store, out.1 = some σ → out = (some σ, out.2) := fun _ h => Prod.ext h rfl
  exact ⟨σ, found, (ran _ _).2 (whole _ found), mgu σ found⟩

end Store
end OrderedCompletion
