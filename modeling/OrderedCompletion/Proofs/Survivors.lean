import OrderedCompletion.Proofs.Interreduction
import OrderedCompletion.Proofs.Matchers
import OrderedCompletion.Proofs.Sharing

/-! Of equations that subsume each other as many stay as are needed: what is dropped is an instance of
something that stays. -/

namespace OrderedCompletion

namespace Equation

variable {s : Store} {c d e : Equation}

/-- An instance of an instance is an instance, whichever of them is reversed. -/
theorem Subsumes.trans (h : Subsumes s c d) (h' : Subsumes s d e) : Subsumes s c e := by
  obtain ⟨l, r, θ, means, first⟩ := h
  obtain ⟨x, y, η, means', second⟩ := h'
  refine ⟨l, r, fun v => (θ v).subst η, means, ?_⟩
  simp only [← Term.subst_subst]
  rcases first with first | first
  · obtain rfl := means'.1.unique first.1
    obtain rfl := means'.2.unique first.2
    exact second
  · obtain rfl := means'.1.unique first.1
    obtain rfl := means'.2.unique first.2
    exact second.symm

section
variable (wf : s.WellFormed) (hc : c.lhs < s.size ∧ c.rhs < s.size) (hd : d.lhs < s.size ∧ d.rhs < s.size)
include wf hc hd

theorem subsumesEither_eq_true_iff : (c.subsumesEither d s).1 = true ↔ Subsumes s c d :=
  (subsumesEither_iff wf ⟨Store.denotes_term hc.1, Store.denotes_term hc.2⟩
    ⟨Store.denotes_term hd.1, Store.denotes_term hd.2⟩).2.2.2

theorem subsumes_iff_instance : Subsumes s c d ↔ IsInstance s c d ∨ IsInstance s c d.reversed :=
  (subsumesEither_eq_true_iff wf hc hd).symm.trans (subsumesEither_instance wf hc hd)

end

end Equation

namespace Engine

open Equation (Subsumes)

variable {s : Store} {es kept rest : List Equation}

/-- The runs of a loop over a list that looks at the equation at an index, and either removes it because
another one subsumes it or goes on to the next index. -/
inductive Sweeps : List Equation → Nat → Store → List Equation → Store → Prop
  | done {es : List Equation} {i : Nat} {s : Store} : es.length ≤ i → Sweeps es i s es s
  | drop {es out : List Equation} {i : Nat} {d : Equation} {s s₁ s' : Store} : es[i]? = some d →
      (es.filter (· ≠ d)).anyM (·.subsumesEither d) s = (true, s₁) → Sweeps (es.eraseIdx i) i s₁ out s' →
      Sweeps es i s out s'
  | keep {es out : List Equation} {i : Nat} {d : Equation} {s s₁ s' : Store} : es[i]? = some d →
      (es.filter (· ≠ d)).anyM (·.subsumesEither d) s = (false, s₁) → Sweeps es (i + 1) s₁ out s' →
      Sweeps es i s out s'

/-- The loop comes to an end from every index. -/
theorem removeSubsumed_sweeps (kept rest : List Equation) (s : Store) :
    Sweeps (kept ++ rest) kept.length s (removeSubsumed kept rest s).1 (removeSubsumed kept rest s).2 := by
  induction rest generalizing kept s with
  | nil =>
      rw [List.append_nil]
      exact .done (Nat.le_refl _)
  | cons d rest ih =>
      have here : (kept ++ d :: rest)[kept.length]? = some d := by simp
      rw [removeSubsumed]
      dsimp only [bind, StateT.bind]
      rcases looked : ((kept ++ d :: rest).filter (· ≠ d)).anyM (·.subsumesEither d) s with ⟨_ | _, s₁⟩
      · refine .keep here looked ?_
        have next := ih (kept ++ [d]) s₁
        rw [List.append_assoc, List.singleton_append, List.length_append] at next
        exact next
      · refine .drop here looked ?_
        have gone : (kept ++ d :: rest).eraseIdx kept.length = kept ++ rest := by
          rw [List.eraseIdx_append_of_length_le (Nat.le_refl _), Nat.sub_self, List.eraseIdx_cons_zero]
        rw [gone]
        exact ih kept s₁

/-- What subsumes an equation that is dropped may be dropped later, but then something subsumes both. -/
theorem removeSubsumed_survivor (wf : s.WellFormed) (has : s.HasAll .full (kept ++ rest)) :
    s.Ensures (removeSubsumed kept rest) fun out _ =>
      ∀ d ∈ kept ++ rest, d ∈ out ∨ ∃ c ∈ out, Subsumes s c d := by
  induction rest generalizing kept s with
  | nil =>
      rw [List.append_nil] at has ⊢
      exact .pure wf fun d hd => .inl hd
  | cons d rest ih =>
      rw [removeSubsumed]
      refine (anySubsumes_spec (G := .free) wf (has.of_subset cons_filter_subset)).bind ?_
      rintro yes s₁ wf₁ le₁ ⟨same, answer⟩
      have has₁ := has.mono wf wf₁ le₁
      simp only [← Equation.subsumes_same same] at answer ⊢
      split
      · rename_i subsumed
        obtain ⟨c, hc, subsumes⟩ := answer.1 subsumed
        obtain ⟨hc, other⟩ := List.mem_filter.1 hc
        refine (ih wf₁ (has₁.of_subset subset_around)).mono fun out s₂ _ _ survive b hb => ?_
        by_cases isD : b = d
        · subst isD
          rcases survive c (mem_around hc (of_decide_eq_true other)) with stays | ⟨a, ha, above⟩
          · exact .inr ⟨c, stays, subsumes⟩
          · exact .inr ⟨a, ha, above.trans subsumes⟩
        · exact survive b (mem_around hb isD)
      · have shift : kept ++ d :: rest = (kept ++ [d]) ++ rest := by simp
        rw [shift] at has₁ ⊢
        exact ih wf₁ has₁

/-- The loop that drops subsumed equations comes to an end. What it keeps stands in the old order and has no
equation that another one subsumes, and every equation that it drops is an instance of one that it keeps, which
may be reversed. -/
theorem removeSubsumed_exact (wf : s.WellFormed) (known : ∀ e ∈ es, e.lhs < s.size ∧ e.rhs < s.size) :
    Sweeps es 0 s (removeSubsumed [] es s).1 (removeSubsumed [] es s).2 ∧
    (removeSubsumed [] es s).1.Sublist es ∧
    (∀ c ∈ (removeSubsumed [] es s).1, ∀ d ∈ (removeSubsumed [] es s).1, c ≠ d →
      (c.subsumesEither d (removeSubsumed [] es s).2).1 = false) ∧
    ∀ d ∈ es, d ∉ (removeSubsumed [] es s).1 → ∃ c ∈ (removeSubsumed [] es s).1,
      Equation.IsInstance s c d ∨ Equation.IsInstance s c d.reversed := by
  have has : s.HasAll .full ([] ++ es) := Store.hasAll_full wf known
  obtain ⟨wf', le', same, fewer, -⟩ := removeSubsumed_spec (G := .free) wf has
  have apart := (removeSubsumed_apart (G := .free) wf has nofun).2.2
  have survive := (removeSubsumed_survivor wf has).2.2
  have stored := fun d hd => known d (fewer.subset hd)
  refine ⟨removeSubsumed_sweeps [] es s, fewer, fun c hc d hd other => ?_, fun d hd dropped => ?_⟩
  · have stored' : ∀ e ∈ (removeSubsumed [] es s).1,
        e.lhs < (removeSubsumed [] es s).2.size ∧ e.rhs < (removeSubsumed [] es s).2.size := by
      rw [same.size]
      exact stored
    rw [Bool.eq_false_iff, ne_eq, Equation.subsumesEither_eq_true_iff wf' (stored' c hc) (stored' d hd),
      Equation.subsumes_same same]
    exact apart c hc d hd other
  · obtain ⟨c, hc, subsumes⟩ := (survive d hd).resolve_left dropped
    exact ⟨c, hc, (Equation.subsumes_iff_instance wf (stored c hc) (known d hd)).1 subsumes⟩

/-- An equation, a renamed copy of it that is reversed, and an instance. -/
def mirrored : List Equation × Store :=
  Equation.listOfTerms [
    (.app (.symbol ⟨0⟩) [.var 0], .var 0), (.var 1, .app (.symbol ⟨0⟩) [.var 1]),
    (.app (.symbol ⟨0⟩) [.app (.symbol ⟨1⟩) []], .app (.symbol ⟨1⟩) [])] .empty

theorem mirrored_wellFormed : mirrored.2.WellFormed := by
  rw [mirrored]
  apply Store.wellFormed_listOfTerms
  simp [Term.over_app_iff, Signature.full, Term.Over.var]

/-- The copy is the only one that stays, and the other two are instances of it. -/
theorem removeSubsumed_exact_mirrored :
    (∀ e ∈ mirrored.1, e.lhs < mirrored.2.size ∧ e.rhs < mirrored.2.size) ∧
    (removeSubsumed [] mirrored.1 mirrored.2).1 = [⟨2, 3⟩] ∧
    Sweeps mirrored.1 0 mirrored.2 [⟨2, 3⟩] (removeSubsumed [] mirrored.1 mirrored.2).2 ∧
    ∀ d ∈ mirrored.1, d ≠ ⟨2, 3⟩ →
      Equation.IsInstance mirrored.2 ⟨2, 3⟩ d ∨ Equation.IsInstance mirrored.2 ⟨2, 3⟩ d.reversed := by
  have known : ∀ e ∈ mirrored.1, e.lhs < mirrored.2.size ∧ e.rhs < mirrored.2.size := by decide +kernel
  have outcome : (removeSubsumed [] mirrored.1 mirrored.2).1 = [⟨2, 3⟩] := by decide +kernel
  obtain ⟨sweeps, -, -, dropped⟩ := removeSubsumed_exact mirrored_wellFormed known
  rw [outcome] at sweeps dropped
  refine ⟨known, outcome, sweeps, fun d hd other => ?_⟩
  obtain ⟨c, hc, subsumes⟩ := dropped d hd (by simpa using other)
  rwa [List.mem_singleton.1 hc] at subsumes

end Engine
end OrderedCompletion
