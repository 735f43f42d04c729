import OrderedCompletion.Proofs.Gauge
import OrderedCompletion.Proofs.Substitution

/-! What the equations of a store say. -/

namespace OrderedCompletion

namespace Store

variable {s s' : Store} {e : Equation} {es fs : List Equation} {l r : Term} {sig : Signature}

/-- What equations of a store say. -/
def theory (s : Store) (es : List Equation) : Theory :=
  {eq | ∃ e ∈ es, eq = (s.term e.lhs, s.term e.rhs)}

/-- The sides of an equation are stored terms over a signature. -/
def Has (s : Store) (sig : Signature) (e : Equation) : Prop :=
  ∃ l r, s.Means e (l, r) ∧ l.Over sig ∧ r.Over sig

/-- The sides of all equations are stored terms over a signature. -/
def HasAll (s : Store) (sig : Signature) (es : List Equation) : Prop := ∀ e ∈ es, s.Has sig e

/-- The sides of a rule are stored terms over the signature, and the first one is greater. -/
def Directed (s : Store) (sig : Signature) (gt : Term → Term → Prop) (e : Equation) : Prop :=
  ∃ l r, s.Means e (l, r) ∧ l.Over sig ∧ r.Over sig ∧ gt l r

theorem HasAll.of_directed {gt : Term → Term → Prop} (h : ∀ e ∈ es, s.Directed sig gt e) : s.HasAll sig es := by
  intro e he
  obtain ⟨l, r, means, hl, hr, -⟩ := h e he
  exact ⟨l, r, means, hl, hr⟩

theorem mem_theory (he : e ∈ es) (h : s.Means e (l, r)) : (l, r) ∈ s.theory es :=
  ⟨e, he, by rw [h.1.2, h.2.2]⟩

/-- What an equation contributes is what it means. -/
theorem eq_of_means {x y : Term} (h : s.Means e (l, r)) (same : (x, y) = (s.term e.lhs, s.term e.rhs)) :
    x = l ∧ y = r := by
  rw [h.1.2, h.2.2] at same
  exact Prod.mk.inj same

theorem mem_theory_cons {x y : Term} (h : s.Means e (l, r)) :
    (x, y) ∈ s.theory (e :: es) ↔ (x = l ∧ y = r) ∨ (x, y) ∈ s.theory es := by
  constructor
  · rintro ⟨d, hd, same⟩
    rcases List.mem_cons.1 hd with rfl | hd
    · exact .inl (eq_of_means h same)
    · exact .inr ⟨d, hd, same⟩
  · rintro (⟨rfl, rfl⟩ | ⟨d, hd, same⟩)
    · exact mem_theory List.mem_cons_self h
    · exact ⟨d, List.mem_cons_of_mem _ hd, same⟩

theorem theory_mono (h : es ⊆ fs) : s.theory es ⊆ s.theory fs := by
  rintro _ ⟨e, he, rfl⟩
  exact ⟨e, h he, rfl⟩

theorem Has.mono (h : s.Has sig e) (wf : s.WellFormed) (wf' : s'.WellFormed) (le : s ≤ s') :
    s'.Has sig e := by
  obtain ⟨l, r, means, inSig⟩ := h
  exact ⟨l, r, Equation.means_mono means wf wf' le, inSig⟩

theorem Has.reversed (h : s.Has sig e) : s.Has sig e.reversed := by
  obtain ⟨l, r, means, hl, hr⟩ := h
  exact ⟨r, l, Equation.means_reversed means, hr, hl⟩

theorem HasAll.mono (h : s.HasAll sig es) (wf : s.WellFormed) (wf' : s'.WellFormed) (le : s ≤ s') :
    s'.HasAll sig es :=
  fun e he => (h e he).mono wf wf' le

theorem HasAll.of_subset (h : s.HasAll sig fs) (sub : es ⊆ fs) : s.HasAll sig es :=
  fun e he => h e (sub he)

theorem HasAll.exists_means (h : s.HasAll sig es) (hl : (l, r) ∈ s.theory es) :
    ∃ e ∈ es, s.Means e (l, r) ∧ l.Over sig ∧ r.Over sig := by
  obtain ⟨e, he, same⟩ := hl
  obtain ⟨l', r', means, inSig⟩ := h e he
  obtain ⟨rfl, rfl⟩ := Prod.mk.inj same
  rw [means.1.2, means.2.2]
  exact ⟨e, he, means, inSig⟩

/-- Equations that are used in both directions have the sides of one of them. -/
theorem HasAll.means_bothWays (h : s.HasAll sig es) (he : e ∈ es.flatMap fun e => [e, e.reversed]) :
    ∃ l r, s.Means e (l, r) ∧ l.Over sig ∧ r.Over sig ∧ ((l, r) ∈ s.theory es ∨ (r, l) ∈ s.theory es) := by
  obtain ⟨d, hd, side⟩ := List.mem_flatMap.1 he
  obtain ⟨l, r, means, hl, hr⟩ := h d hd
  have mem := mem_theory hd means
  rcases List.mem_pair.1 side with rfl | rfl
  · exact ⟨l, r, means, hl, hr, .inl mem⟩
  · exact ⟨r, l, Equation.means_reversed means, hr, hl, .inr mem⟩

theorem HasAll.exists_means_bothWays (h : s.HasAll sig es)
    (hl : (l, r) ∈ s.theory es ∨ (r, l) ∈ s.theory es) :
    ∃ e ∈ es.flatMap fun e => [e, e.reversed], s.Means e (l, r) := by
  rcases hl with hl | hl
  · obtain ⟨e, he, means, -⟩ := h.exists_means hl
    exact ⟨e, List.mem_flatMap.2 ⟨e, he, by simp⟩, means⟩
  · obtain ⟨e, he, means, -⟩ := h.exists_means hl
    exact ⟨e.reversed, List.mem_flatMap.2 ⟨e, he, by simp⟩, Equation.means_reversed means⟩

theorem HasAll.theory_eq (h : s.HasAll sig es) (wf : s.WellFormed) (wf' : s'.WellFormed)
    (le : s ≤ s') : s'.theory es = s.theory es := by
  ext eq
  refine exists_congr fun e => and_congr_right fun he => ?_
  obtain ⟨l, r, means, -⟩ := h e he
  have means' := Equation.means_mono means wf wf' le
  rw [means.1.2, means.2.2, means'.1.2, means'.2.2]

theorem SameTerms.theory (same : SameTerms s s') : s'.theory es = s.theory es := by
  simp only [Store.theory, same.term]

theorem theory_nil : s.theory [] = ∅ := by
  ext eq
  simp [theory]

theorem HasAll.fits {G : Gauge} (h : s.HasAll G.sig es) : G.Fits (s.theory es) := by
  intro l r hl
  obtain ⟨e, -, -, inSig⟩ := h.exists_means hl
  exact inSig

end Store

end OrderedCompletion
