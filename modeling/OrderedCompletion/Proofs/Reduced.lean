import OrderedCompletion.Proofs.Progress

/-! A step leaves no rule of use on another one or on the worklist. -/

namespace OrderedCompletion.Engine

variable {G : Gauge} {e e' e₁ : Engine} {s s' : Store} {eq ab : Equation}

/-- Neither left side has an instance of the other one inside. -/
def Apart (s : Store) (c d : Equation) : Prop := s.Avoids c.lhs d.lhs ∧ s.Avoids d.lhs c.lhs

/-- No rule can be used on the sides of another one or of an equation. -/
structure Reduced (s : Store) (e : Engine) : Prop where
  lefts : e.rules.Pairwise (Apart s)
  rights : ∀ rule ∈ e.rules, ∀ d ∈ e.rules, d ≠ rule → s.Avoids rule.rhs d.lhs
  sides : ∀ c ∈ e.equations, ∀ d ∈ e.rules, s.Avoids c.lhs d.lhs ∧ s.Avoids c.rhs d.lhs

theorem Apart.mono {c d : Equation} (h : Apart s c d) (wf : s.WellFormed) (wf' : s'.WellFormed)
    (le : s ≤ s') : Apart s' c d :=
  ⟨h.1.mono wf wf' le, h.2.mono wf wf' le⟩

theorem Reduced.of_nil (h : e.rules = []) : Reduced s e := by
  constructor
  · rw [h]
    exact .nil
  · rw [h]
    exact fun _ no => by cases no
  · rw [h]
    exact fun _ _ _ no => by cases no

theorem Reduced.mono (h : Reduced s e) (wf : s.WellFormed) (wf' : s'.WellFormed) (le : s ≤ s') :
    Reduced s' e where
  lefts := h.lefts.imp fun apart => apart.mono wf wf' le
  rights := fun rule hr d hd other => (h.rights rule hr d hd other).mono wf wf' le
  sides := fun c hc d hd => ⟨(h.sides c hc d hd).1.mono wf wf' le, (h.sides c hc d hd).2.mono wf wf' le⟩

/-- Fewer equations leave it so. -/
theorem Reduced.of_subset (h : Reduced s e) (rules : e'.rules = e.rules)
    (equations : e'.equations ⊆ e.equations) : Reduced s e' where
  lefts := rules ▸ h.lefts
  rights := rules ▸ h.rights
  sides := rules ▸ fun c hc => h.sides c (equations hc)

/-- Reducing right sides leaves left sides apart. -/
theorem pairwise_apart_of_lowersRight {ds cs : List Equation} (h : cs.Pairwise (Apart s))
    (lower : List.SublistForall₂ (LowersRight G s') ds cs) : ds.Pairwise (Apart s) := by
  obtain ⟨bs, all, sub⟩ := List.sublistForall₂_iff.1 lower
  have same : ds.map (·.lhs) = bs.map (·.lhs) := by
    rw [← List.forall₂_eq_eq_eq, List.forall₂_map_left_iff, List.forall₂_map_right_iff]
    exact all.imp fun _ _ h => h.1
  have lefts : (bs.map (·.lhs)).Pairwise fun r q => s.Avoids r q ∧ s.Avoids q r :=
    List.pairwise_map.2 (h.sublist sub)
  rw [← same, List.pairwise_map] at lefts
  exact lefts

/-- Left sides that are apart are all it takes before rules and equations are reduced by each other. -/
theorem Interreduces.reduced (h : Interreduces G e s' e') (strict : G.strict)
    (lefts : e.rules.Pairwise (Apart s')) : Reduced s' e' where
  lefts := pairwise_apart_of_lowersRight lefts h.rules
  rights := h.rights strict
  sides := h.sides strict

/-- The sides of an equation that becomes a rule are those of the rule. -/
theorem Reduced.avoids_of_directs (h : Reduced s e) (mem : eq ∈ e.equations)
    (directs : Directs G s' eq ab) {rule : Equation} (hr : rule ∈ e.rules) : s.Avoids ab.lhs rule.lhs := by
  obtain ⟨left, right⟩ := h.sides eq mem rule hr
  rcases directs.same with rfl | rfl
  · exact left
  · exact right

/-- What is left of the rules is apart from the new one: it was irreducible by them, and what it reduces is
gone. -/
theorem Adds.pairwise_apart (h : Adds G eq ab e s e') (strict : G.strict) (inv : Reduced s e)
    (mem : eq ∈ e.equations) (directs : Directs G s eq ab) : e'.rules.Pairwise (Apart s) := by
  have sub := h.rules
  rw [addNew] at sub
  split at sub
  · exact inv.lefts.sublist sub
  · rename_i fresh
    obtain ⟨old, new, split, subOld, subNew⟩ := List.sublist_append_iff.1 sub
    rw [split, List.pairwise_append]
    refine ⟨inv.lefts.sublist subOld, ?_, fun c hc d hd => ?_⟩
    · exact (List.pairwise_singleton _ ab).sublist subNew
    · obtain rfl := List.mem_singleton.1 (subNew.subset hd)
      have before := subOld.subset hc
      have other : c ≠ d := by
        rintro rfl
        exact fresh before
      refine ⟨h.avoids strict c (split ▸ List.mem_append_left _ hc) other, ?_⟩
      exact inv.avoids_of_directs mem directs before

/-- A step leaves rules and equations reduced by each other. -/
theorem Stepped.reduced (h : Stepped G e s e') (strict : G.strict) (inv : Reduced s e) : Reduced s e' := by
  cases h with
  | oriented mem directs adds reduces =>
      exact reduces.reduced strict (adds.pairwise_apart strict inv mem directs)
  | dropped mem _ fewer same =>
      refine inv.of_subset same fun c hc => ?_
      rw [fewer] at hc
      exact (mem_remove.1 hc).1
  | deferred mem proper apart same reduces => exact reduces.reduced strict (same ▸ inv.lefts)

end OrderedCompletion.Engine
