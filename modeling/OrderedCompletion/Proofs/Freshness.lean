import OrderedCompletion.Proofs.Completeness
import OrderedCompletion.Proofs.Conservation
import OrderedCompletion.Proofs.Omission
import OrderedCompletion.Proofs.Preservation
import OrderedCompletion.Proofs.Shortage

/-! Fresh variables are new: what a run draws it has not drawn before, and at that moment neither its
equations and rules nor the terms of the call contain it. -/

namespace OrderedCompletion

open Supplied

namespace VarSource

variable {n v w : Var} {reserved : List Var} {rest : VarSource} {l : Nat}

/-- A source that counts passes only what is reserved. -/
theorem nextOutside_passes (h : (counting n).nextOutside reserved l = some (w, rest)) :
    w < lastVar ∧ ∀ v, n ≤ v → v < w → v ∈ reserved := by
  induction l generalizing n with
  | zero => cases h
  | succ l ih =>
      rw [nextOutside, next?] at h
      by_cases more : n < lastVar
      · simp only [if_pos more] at h
        split at h
        · rename_i held
          obtain ⟨below, passes⟩ := ih h
          refine ⟨below, fun v le less => ?_⟩
          rcases Nat.eq_or_lt_of_le le with rfl | le
          · exact held
          · exact passes v le less
        · cases h
          exact ⟨more, fun v le less => absurd less (Nat.not_lt_of_le le)⟩
      · simp only [if_neg more] at h
        cases h

/-- A source that counts ends when all that is left is reserved. -/
theorem nextOutside_ends (h : (counting n).nextOutside reserved l = none) (enough : lastVar ≤ n + l)
    (le : n ≤ v) (below : v < lastVar) : v ∈ reserved := by
  induction l generalizing n with
  | zero => exact absurd (Nat.le_trans enough le) (Nat.not_le_of_lt below)
  | succ l ih =>
      rw [nextOutside, next?, if_pos (Nat.lt_of_le_of_lt le below)] at h
      dsimp only at h
      split at h
      · rename_i held
        rcases Nat.eq_or_lt_of_le le with rfl | le
        · exact held
        · exact ih h (by rwa [Nat.succ_add_eq_add_succ]) le
      · cases h

end VarSource

namespace Supply

variable {before mid after : Supply} {n v : Var}

/-- The variable was drawn in between: the source had it and has it no more, and it was not held back. -/
def Draws (before after : Supply) (v : Var) : Prop :=
  v < lastVar ∧ before.source.Offers v ∧ ¬ after.source.Offers v ∧ v ∉ after.reserved

/-- What a source that counts has drawn after one draw is what this draw gave. -/
theorem draws_draw (counts : before.source = .counting n) :
    before.Draws before.draw.2 v ↔ before.draw.1 = .ok v := by
  rw [Draws, draw, counts]
  have all : lastVar ≤ n + (VarSource.counting n).remaining := Nat.sub_le_iff_le_add'.1 (Nat.le_refl _)
  cases found : (VarSource.counting n).nextOutside before.reserved (VarSource.counting n).remaining with
  | none =>
      constructor
      · rintro ⟨below, le, -, free⟩
        exact absurd (VarSource.nextOutside_ends found all le below) free
      · intro no
        cases no
  | some next =>
      obtain ⟨w, rest⟩ := next
      obtain ⟨below, passes⟩ := VarSource.nextOutside_passes found
      obtain ⟨le, rfl⟩ := VarSource.nextOutside_counting found
      constructor
      · rintro ⟨-, le', gone, free⟩
        have notAbove : ¬ w < v := gone
        rcases Nat.eq_or_lt_of_le (Nat.le_of_not_lt notAbove) with rfl | less
        · rfl
        · exact absurd (passes v le' less) free
      · rintro ⟨⟩
        exact ⟨below, le, Nat.not_succ_le_self v, (VarSource.nextOutside_spec found).1⟩

/-- What is drawn over two stretches is drawn in one of them, and never in both. -/
theorem draws_iff (first : before.Onward mid) (second : mid.Onward after)
    (same : mid.reserved = after.reserved) :
    (before.Draws after v ↔ before.Draws mid v ∨ mid.Draws after v) ∧
      ¬ (before.Draws mid v ∧ mid.Draws after v) := by
  refine ⟨⟨?_, ?_⟩, fun both => both.1.2.2.1 both.2.2.1⟩
  · rintro ⟨below, had, gone, free⟩
    by_cases between : mid.source.Offers v
    · exact .inr ⟨below, between, gone, free⟩
    · exact .inl ⟨below, had, between, same ▸ free⟩
  · rintro (⟨below, had, gone, free⟩ | ⟨below, had, gone, free⟩)
    · exact ⟨below, had, fun again => gone (second.offers v again), same ▸ free⟩
    · exact ⟨below, first.offers v had, gone, free⟩

end Supply

namespace Engine

variable {ctx : Context} {e : Engine} {s : Store} {x : Var} {r : Ref} {a : Term} {α : Type}

section
variable (bounded : x < lastVar)
include bounded

end
end Engine

namespace Problem

open Engine

variable {p : Problem} {ctx : Context} {e : Engine} {s s' : Store} {n v : Var} {D : Set Var}

/-- The states and stores that calls lead to, and the variables that they have drawn. -/
inductive Spends (p : Problem) : Engine → Store → Set Var → Prop
  | start : Spends p p.start.1 p.start.2 ∅
  | grow {e : Engine} {s s' : Store} {D : Set Var} : Spends p e s D → s'.WellFormed → s ≤ s' → Spends p e s' D
  | call {e : Engine} {s : Store} {D : Set Var} (c : Call) (ctx : Context) : Spends p e s D →
      ctx.order = p.order → (∀ r ∈ c.refs, ∃ a, s.Denotes r a ∧ a.Over .full) →
      Spends p (c.run ctx e s).1 (c.run ctx e s).2
        (D ∪ {v | (supply e).Draws (supply (c.run ctx e s).1) v})

theorem Spends.reaches (h : p.Spends e s D) : p.Reaches .full e s := by
  induction h with
  | start => exact .start
  | grow _ wf' le ih => exact .grow ih wf' le
  | call c ctx _ same known ih => exact .call c ctx ih same known

/-- Equations that are reserved contain only variables that are. -/
theorem reserveAll_covers {es : List Equation} (supply : Supply) (wf : s.WellFormed) (has : s.HasAll .full es) :
    s.Ensures (es.foldlM (fun supply e => return supply.reserve (← e.vars)) supply) fun supply' s' =>
      supply'.source = supply.source ∧ supply.reserved ⊆ supply'.reserved ∧
        ∀ v, v ∉ supply'.reserved → s'.OmitsAll v es := by
  induction es generalizing s supply with
  | nil => exact .pure wf ⟨rfl, List.Subset.refl _, nofun⟩
  | cons eq es ih =>
      rw [List.foldlM_cons]
      obtain ⟨l, r, means, -⟩ := has eq List.mem_cons_self
      refine Store.Ensures.bind ((Equation.vars_spec wf means).bind fun vs s₁ wf₁ le₁ h =>
        .pure (Q := fun out s₁ => out = supply.reserve (sortVars (l.vars ++ r.vars))) wf₁ (by rw [h.1])) ?_
      rintro out s₁ wf₁ le₁ rfl
      refine (ih _ wf₁ ((has.of_subset (List.subset_cons_self eq es)).mono wf wf₁ le₁)).mono ?_
      rintro supply' s' wf' le' ⟨source, grown, omits⟩
      refine ⟨source, fun v hv => grown (Supply.mem_reserve.2 (.inl hv)), fun v free d hd => ?_⟩
      rcases List.mem_cons.1 hd with rfl | hd
      · have apart : v ∉ l.vars ++ r.vars := fun hv =>
          free (grown (Supply.mem_reserve.2 (.inr (mem_sortVars.2 hv))))
        obtain ⟨left, right⟩ := not_or.1 (List.mem_append.not.1 apart)
        exact ⟨l, r, Equation.means_mono means wf wf' (le₁.trans le'), left, right⟩
      · exact omits v free d hd

/-- What a run keeps whose source counts: what it may still draw occurs nowhere and was not drawn. -/
structure Thrifty (e : Engine) (s : Store) (D : Set Var) : Prop where
  counts : ∀ v < lastVar, (supply e).source.Offers v → Before v e
  omits : ∀ v < lastVar, (supply e).Offers v → s.OmitsAll v e.equations ∧ s.OmitsAll v e.rules
  spent : ∀ v ∈ D, Past v e

theorem cut_offers_not (before : Before v e) : ¬ (supply (cut v e)).Offers v := by
  obtain ⟨m, -, counts⟩ := before
  have source : (supply (cut v e)).source = (VarSource.counting m).upTo v := counts ▸ rfl
  rintro ⟨offered, -⟩
  rw [source] at offered
  obtain ⟨le, less⟩ := List.mem_range'_1.1 offered
  rw [Nat.add_sub_cancel' le] at less
  exact Nat.lt_irrefl v less

/-- What a run with the whole source may still draw is missing if the source is cut there. -/
theorem Thrifty.cut_omits (h : Thrifty e s D) (below : v < lastVar) (offered : (supply e).Offers v) :
    (cut v e).Omits v s where
  equations := (h.omits v below offered).1
  rules := (h.omits v below offered).2
  away := cut_offers_not (h.counts v below offered.1)

theorem Thrifty.grow (h : Thrifty e s D) (wf : s.WellFormed) (wf' : s'.WellFormed) (le : s ≤ s') :
    Thrifty e s' D where
  counts := h.counts
  omits := fun v below offered =>
    ⟨(h.omits v below offered).1.mono wf wf' le, (h.omits v below offered).2.mono wf wf' le⟩
  spent := h.spent

theorem Thrifty.start (posed : p.Posed .full) (counts : p.source = .counting n) :
    Thrifty p.start.1 p.start.2 ∅ := by
  have has : p.store.HasAll .full p.worklist := posed.has.of_subset fun eq h => (mem_worklist.1 h).1
  obtain ⟨-, -, source, -, covers⟩ := reserveAll_covers { source := p.source } posed.wellFormed has
  refine ⟨fun v _ offered => ⟨n, ?_, source.trans counts⟩, fun v _ offered => ⟨covers v offered.2, nofun⟩,
    nofun⟩
  have same : (supply p.start.1).source = .counting n := source.trans counts
  rwa [same] at offered

theorem Thrifty.call (h : Thrifty e s D) (wf : s.WellFormed) (preserves : ctx.order.Preserves) (c : Call)
    (known : ∀ r ∈ c.refs, ∃ a, s.Denotes r a ∧ a.Over .full) :
    Thrifty (c.run ctx e s).1 (c.run ctx e s).2
      (D ∪ {v | (supply e).Draws (supply (c.run ctx e s).1) v}) := by
  -- as long as a variable is offered the run goes as it does without this variable
  have agrees : ∀ v < lastVar, (supply (c.run ctx e s).1).source.Offers v → Before v (c.run ctx e s).1 ∧
      c.run ctx (cut v e) s = (cut v (c.run ctx e s).1, (c.run ctx e s).2) := by
    intro v below offered
    obtain ⟨onward, outcome⟩ := c.run_cut below ctx e s
    rcases outcome (h.counts v below (onward.offers v offered)) with agree | ⟨past, -⟩
    · exact agree
    · exact absurd offered past
  refine ⟨fun v below offered => (agrees v below offered).1, fun v below offered => ?_, ?_⟩
  · have onward := (c.run_cut below ctx e s).1
    have before : (supply e).Offers v :=
      ⟨onward.offers v offered.1, fun held => offered.2 (onward.reserved held)⟩
    have omits := c.run_omits preserves wf (h.cut_omits below before) known
    rw [(agrees v below offered.1).2] at omits
    exact ⟨omits.equations, omits.rules⟩
  · rintro v (hv | drawn) offered
    · have onward := (c.run_cut (v := firstFresh) (by decide) ctx e s).1
      exact h.spent v hv (onward.offers v offered)
    · exact drawn.2.2.1 offered

end Problem
end OrderedCompletion
