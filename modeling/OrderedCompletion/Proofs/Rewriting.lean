import OrderedCompletion.Proofs.Gauge

/-! Rewriting with rules and with equations that go down. -/

namespace OrderedCompletion

/-- No instance of the second term is inside the first one. -/
def Term.Avoids (t l : Term) : Prop :=
  ∀ (p : Position) (u : Term), t.subtermAt p = some u → ∀ θ : Var → Term, l.subst θ ≠ u

namespace Gauge

/-- A rule, or an equation that goes down, is used at the top of a term. Variables of the right side that
the left side does not bind stand for variables. -/
def Root (G : Gauge) (R E : Theory) (s t : Term) : Prop :=
  t.Over G.sig ∧ ∃ l r θ, l.subst θ = s ∧ r.subst θ = t ∧ (∀ v, v ∉ l.vars → ∃ x, θ v = .var x) ∧
    ((l, r) ∈ R ∨ ((l, r) ∈ E ∨ (r, l) ∈ E) ∧ G.gt s t)

/-- One use somewhere in a term. -/
abbrev Step (G : Gauge) (R E : Theory) : Term → Term → Prop := InContext (G.Root R E)

/-- Any number of uses. -/
abbrev Reduces (G : Gauge) (R E : Theory) : Term → Term → Prop := Relation.ReflTransGen (G.Step R E)

/-- Rules lead from greater to smaller terms. -/
def Descends (G : Gauge) (R : Theory) : Prop :=
  ∀ l r, (l, r) ∈ R → l.Over G.sig ∧ r.Over G.sig ∧ G.gt l r

/-- The left side does not match, or does so in a way that does not go down. -/
def Refuses (G : Gauge) (l r u : Term) : Prop :=
  ∀ θ : Var → Term, l.subst θ = u → ∃ η : Var → Term, l.subst η = u ∧ ¬ G.gt u (r.subst η) ∧
    ∀ v, v ∉ l.vars → ∃ x, η v = .var x

/-- Nothing is used at the top. -/
structure Inert (G : Gauge) (R E : Theory) (u : Term) : Prop where
  rules : ∀ l r, (l, r) ∈ R → ∀ θ : Var → Term, l.subst θ ≠ u
  equations : ∀ l r, (l, r) ∈ E ∨ (r, l) ∈ E → G.Refuses l r u

/-- Nothing is used anywhere in a term. -/
def Settled (G : Gauge) (R E : Theory) (t : Term) : Prop :=
  ∀ p u, t.subtermAt p = some u → G.Inert R E u

variable {G : Gauge} {R E R' E' : Theory} {s t u : Term}

theorem Root.gt (desc : G.Descends R) (hs : s.Over G.sig) (h : G.Root R E s t) : G.gt s t := by
  obtain ⟨ht, l, r, θ, rfl, rfl, -, rule | ⟨-, down⟩⟩ := h
  · obtain ⟨hl, hr, down⟩ := desc l r rule
    obtain ⟨η, hη, sameL, sameR⟩ := exists_over_subst hs ht
    rw [← sameL, ← sameR]
    exact G.subst hl hr hη down
  · exact down

theorem Step.inSig (h : G.Step R E s t) (hs : s.Over G.sig) : t.Over G.sig := by
  induction h with
  | root h => exact h.1
  | @arg s t f pre post _ ih => exact over_arg hs (ih ((Term.over_app_iff.1 hs).2 s (by simp)))

theorem Step.gt (desc : G.Descends R) (hs : s.Over G.sig) (h : G.Step R E s t) : G.gt s t := by
  induction h with
  | root h => exact h.gt desc hs
  | @arg s t f pre post step ih =>
      have hs' := (Term.over_app_iff.1 hs).2 s (by simp)
      exact G.arg hs (over_arg hs (Step.inSig step hs')) (ih hs')

theorem Step.link (h : G.Step R E s t) : Link (R ∪ E) s t := by
  induction h with
  | root h =>
      obtain ⟨-, l, r, θ, rfl, rfl, -, rule | ⟨forth | back, -⟩⟩ := h
      · exact .inl (.root ⟨l, r, θ, .inl rule, rfl, rfl⟩)
      · exact .inl (.root ⟨l, r, θ, .inr forth, rfl, rfl⟩)
      · exact .inr (.root ⟨r, l, θ, .inr back, rfl, rfl⟩)
  | arg f pre post _ ih => exact ih.arg f pre post

/-- What rules can be used on has an instance of a left side inside. -/
theorem Step.exists_inside (h : G.Step R ∅ s t) : ∃ l r, (l, r) ∈ R ∧ ¬ s.Avoids l := by
  induction h with
  | root h =>
      obtain ⟨-, l, r, θ, rfl, -, -, rule | ⟨no | no, -⟩⟩ := h
      · exact ⟨l, r, rule, fun avoids => avoids [] _ Term.subtermAt_nil θ rfl⟩
      · exact no.elim
      · exact no.elim
  | @arg s t f pre post _ ih =>
      obtain ⟨l, r, rule, inside⟩ := ih
      refine ⟨l, r, rule, fun avoids => inside fun p u at_ θ => avoids (pre.length :: p) u ?_ θ⟩
      simpa [Term.subtermAt] using at_

theorem Reduces.inSig (h : G.Reduces R E s t) (hs : s.Over G.sig) : t.Over G.sig := by
  induction h with
  | refl => exact hs
  | tail _ step ih => exact Step.inSig step ih

theorem Reduces.descent (desc : G.Descends R) (h : G.Reduces R E s t) (hs : s.Over G.sig) :
    G.Descent (R ∪ E) s t := by
  induction h with
  | refl => exact .refl s
  | @tail b c chain step ih =>
      have hb := Reduces.inSig chain hs
      refine ih.trans ?_ hs
      exact Conv.single (.refl hb) ⟨step.inSig hb, .inr (step.gt desc hb)⟩ step.link

theorem Reduces.le (desc : G.Descends R) (h : G.Reduces R E s t) (hs : s.Over G.sig) : G.le t s :=
  ((h.descent desc hs).under hs).2

/-- A term that is not changed at the top and below is settled. -/
theorem Settled.app {f : Head} {args : List Term} (top : G.Inert R E (.app f args))
    (below : ∀ a ∈ args, G.Settled R E a) : G.Settled R E (.app f args) := by
  intro p u at_
  cases p with
  | nil =>
      rw [Term.subtermAt_nil, Option.some.injEq] at at_
      exact at_ ▸ top
  | cons i p =>
      obtain ⟨g, ts, a, same, ha, hs⟩ := Term.subtermAt_cons_eq_some at_
      obtain ⟨rfl, rfl⟩ := Term.app.inj same
      exact below a (List.mem_of_getElem? ha) p u hs

theorem Settled.var {v : Var} (top : G.Inert R E (.var v)) : G.Settled R E (.var v) := by
  intro p u at_
  cases p with
  | nil =>
      rw [Term.subtermAt_nil, Option.some.injEq] at at_
      exact at_ ▸ top
  | cons i p => simp [Term.subtermAt] at at_

theorem Settled.avoids {l r : Term} (h : G.Settled R E t) (rule : (l, r) ∈ R) : t.Avoids l :=
  fun p u at_ => (h p u at_).rules l r rule

end Gauge
end OrderedCompletion
