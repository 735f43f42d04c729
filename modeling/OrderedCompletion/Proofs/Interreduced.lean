import OrderedCompletion.Proofs.GroundCompleteness

/-! After every step the rules go down, and none is of use on another one, on itself or on the worklist. -/

namespace OrderedCompletion

namespace ReductionOrder

variable {sig : Signature} {gt : Term → Term → Prop} {l r : Term}

/-- A rule that goes down is of no use on its own right side: otherwise there would be ever smaller terms
with instances of its left side inside. -/
theorem avoids_self (laws : ReductionOrder sig gt) (hl : l.Over sig) (hr : r.Over sig) (h : gt l r) :
    r.Avoids l := by
  intro p u at_ θ inside
  suffices never : ∀ w : Term, w.Over sig → ∀ q η, w.subtermAt q ≠ some (l.subst η) by
    refine never l hl [] .var ?_
    rw [Term.subtermAt_nil, Term.subst_self]
  intro w
  induction w using laws.wf.induction with
  | _ w ih =>
      intro hw q η here
      have hlη := hw.subtermAt here
      have hrη : (r.subst η).Over sig :=
        hr.subst fun v hv => hlη.of_mem_vars (laws.vars_subset hl hr h v hv)
      obtain ⟨ρ, hρ, sameL, sameR⟩ := exists_over_subst hlη hrη
      have down : gt (l.subst η) (r.subst η) := by
        rw [← sameL, ← sameR]
        exact laws.subst hl hr hρ h
      have smaller := laws.gauge.gt_replaceAt hw hrη here down
      have hw' := hw.replaceAt (p := q) hrη
      refine ih _ ⟨hw', hw, smaller⟩ hw' (q ++ p) (fun v => (θ v).subst η) ?_
      rw [Term.subtermAt_replaceAt here, Term.subtermAt_subst at_, ← inside, Term.subst_subst]

end ReductionOrder

namespace Engine

/-- Rules go down by what the order answers, and no rule can be used on the left side of another one, on any
right side, or on the worklist. -/
structure Interreduced (o : Order) (e : Engine) (s : Store) : Prop where
  descends : ∀ rule ∈ e.rules, (o.greater rule.lhs rule.rhs s).1 = true
  lefts : e.rules.Pairwise fun c d => s.Avoids c.lhs d.lhs ∧ s.Avoids d.lhs c.lhs
  rights : ∀ rule ∈ e.rules, ∀ d ∈ e.rules, s.Avoids rule.rhs d.lhs
  sides : ∀ eq ∈ e.equations, ∀ d ∈ e.rules, s.Avoids eq.lhs d.lhs ∧ s.Avoids eq.rhs d.lhs

variable {sig : Signature} {gt : Term → Term → Prop} {A : Theory} {u : Bool} {e : Engine} {s : Store}
variable {o : Order}

/-- A run that has not failed is interreduced. -/
theorem Presents.interreduced {laws : ReductionOrder sig gt} (inv : Presents laws.gauge A u s e)
    (decides : o.Decides sig gt) (wf : s.WellFormed) (live : e.status ≠ .failed) :
    Interreduced o e s := by
  have reduced := inv.reduced trivial live
  have down : ∀ rule ∈ e.rules, ∃ l r, s.Means rule (l, r) ∧ l.Over sig ∧ r.Over sig ∧ gt l r := by
    intro rule hr
    obtain ⟨l, r, means, -⟩ := inv.fine.rules rule hr
    exact ⟨l, r, means, inv.fine.descends l r (Store.mem_theory hr means)⟩
  refine ⟨fun rule hr => ?_, reduced.lefts, fun rule hr d hd => ?_, reduced.sides⟩
  · obtain ⟨l, r, means, hl, hr', greater⟩ := down rule hr
    exact (decides wf means.1 means.2 hl hr').2.2.2 greater
  · by_cases same : d = rule
    · subst same
      obtain ⟨l, r, means, hl, hr', greater⟩ := down d hr
      exact ⟨r, l, means.2, means.1, laws.avoids_self hl hr' greater⟩
    · exact reduced.rights rule hr d hd same

end Engine

namespace Problem

open Engine

variable {sig : Signature} {gt : Term → Term → Prop} {p : Problem} {e : Engine} {s : Store} {ctx : Context}

/-- After every step that was taken the system is interreduced. -/
theorem step_interreduced (laws : ReductionOrder sig gt) (decides : p.order.Decides sig gt)
    (posed : p.Posed sig) (distinct : p.start.1.workspace.supply.Distinct) (h : p.Reaches sig e s)
    (same : ctx.order = p.order) (ok : answer (step ctx) e s = .ok false) :
    Interreduced p.order (after (step ctx) e s).1 (after (step ctx) e s).2 := by
  have obeys : p.order.Obeys laws.gauge := decides.obeys laws
  obtain ⟨wf, -, inv⟩ := Reaches.kept (G := laws.gauge) h posed obeys fun _ => distinct
  have spec := step_spec (same ▸ obeys) wf (Posed.fits (G := laws.gauge) posed) inv
  obtain ⟨inv', running⟩ := Kept.answers spec ok
  refine inv'.interreduced decides spec.1 ?_
  rw [running rfl]
  exact nofun

/-- The second step makes a rule and leaves two of them, and four equations. -/
theorem step_interreduced_assorted :
    answer (step (lettersContext assorted.order)) (assortedAfter 1).1 (assortedAfter 1).2 = .ok false ∧
    (assortedAfter 2).1.rules = [⟨5, 0⟩, ⟨7, 8⟩] ∧
    (assortedAfter 2).1.equations = [⟨6, 26⟩, ⟨27, 8⟩, ⟨10, 11⟩, ⟨2, 3⟩] ∧
    Interreduced assorted.order (assortedAfter 2).1 (assortedAfter 2).2 := by
  have outcome : answer (step (lettersContext assorted.order)) (assortedAfter 1).1 (assortedAfter 1).2 = .ok false ∧
      (assortedAfter 2).1.rules = [⟨5, 0⟩, ⟨7, 8⟩] ∧
      (assortedAfter 2).1.equations = [⟨6, 26⟩, ⟨27, 8⟩, ⟨10, 11⟩, ⟨2, 3⟩] := by
    decide +kernel
  obtain ⟨ok, rules, equations⟩ := outcome
  refine ⟨ok, rules, equations, ?_⟩
  have lawful := (Precedence.lawful letters []).mono fun _ _ => Signature.interned_of_named
  have decides : assorted.order.Decides (.named letters) _ := Lpo.decides lawful
  have same : (lettersContext assorted.order).order = assorted.order := rfl
  have reached : assorted.Reaches (.named letters) _ _ := reaches_stepped same 1
  have posed := assorted_posed
  have counts : assorted.source = .counting firstFresh := rfl
  rw [assortedAfter, stepped_succ]
  -- the problem is a variable from here on, or the supply at its start would be evaluated
  unfold assortedAfter at ok
  generalize assorted = p at *
  exact step_interreduced (Lpo.reductionOrder lawful) decides posed (distinct_start posed (counts ▸ trivial)) reached
    same ok

end Problem
end OrderedCompletion
