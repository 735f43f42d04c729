import OrderedCompletion.Proofs.Confluence
import OrderedCompletion.Proofs.Preservation
import OrderedCompletion.Proofs.Simplification

/-! A complete run decides what follows from its axioms. -/

namespace OrderedCompletion

namespace Term

variable {sig : Signature} {s t l : Term} {θ : Var → Term}

open Classical in
/-- The term with a variable for everything that is not over the signature. -/
noncomputable def within (sig : Signature) : Term → Term
  | .var v => .var v
  | .app f args => if sig f args.length then .app f (args.map (within sig)) else .var 0
  | .missing _ => .var 0

theorem within_var (v : Var) : (var v).within sig = .var v := by
  rw [within]

theorem within_app {f : Head} {args : List Term} (h : sig f args.length) :
    (app f args).within sig = .app f (args.map (within sig)) := by
  rw [within, if_pos h]

theorem over_within (sig : Signature) (t : Term) : (t.within sig).Over sig := by
  induction t using Term.induct with
  | var v =>
      rw [within_var]
      exact .var v
  | missing r =>
      rw [within]
      exact .var 0
  | app f args ih =>
      rw [within]
      split
      · rename_i known
        apply Over.app
        · rwa [List.length_map]
        · intro a ha
          obtain ⟨b, hb, rfl⟩ := List.mem_map.1 ha
          exact ih b hb
      · exact .var 0

/-- Under a term over the signature only what stands for variables changes. -/
theorem within_subst (hl : l.Over sig) :
    (l.subst θ).within sig = l.subst fun v => (θ v).within sig := by
  induction l using Term.induct with
  | var v => rfl
  | missing r => exact absurd hl not_over_missing
  | app f args ih =>
      obtain ⟨known, inSig⟩ := over_app_iff.1 hl
      rw [subst_app, subst_app, within_app (by rwa [List.length_map]), List.map_map]
      congr 1
      apply List.map_congr_left
      intro a ha
      exact ih a ha (inSig a ha)

theorem within_self (ht : t.Over sig) : t.within sig = t := by
  have same := within_subst (θ := .var) ht
  simpa only [subst_self, within_var] using same

end Term

variable {sig : Signature} {T : Theory} {s t : Term}

/-- A use of an equation over the signature is one, or vanishes, if only the signature is left. -/
theorem InContext.within (fits : ∀ l r, (l, r) ∈ T → l.Over sig ∧ r.Over sig)
    (h : InContext (Instance T) s t) :
    s.within sig = t.within sig ∨ InContext (Instance T) (s.within sig) (t.within sig) := by
  induction h with
  | root top =>
      obtain ⟨l, r, θ, hT, rfl, rfl⟩ := top
      obtain ⟨hl, hr⟩ := fits l r hT
      right
      rw [Term.within_subst hl, Term.within_subst hr]
      exact .root ⟨l, r, _, hT, rfl, rfl⟩
  | @arg s t f pre post _ ih =>
      by_cases known : sig f (pre ++ s :: post).length
      · have known' : sig f (pre ++ t :: post).length := by simpa using known
        rw [Term.within_app known, Term.within_app known']
        simp only [List.map_append, List.map_cons]
        rcases ih with same | inner
        · left
          rw [same]
        · right
          exact .arg f _ _ inner
      · left
        have unknown : ¬ sig f (pre ++ t :: post).length := by simpa using known
        rw [Term.within, if_neg known, Term.within, if_neg unknown]

/-- What follows from equations over a signature follows by terms over the signature. -/
theorem Derives.conv_over (fits : ∀ l r, (l, r) ∈ T → l.Over sig ∧ r.Over sig) (h : Derives T s t)
    (hs : s.Over sig) (ht : t.Over sig) : Conv T (fun z => z.Over sig) s t := by
  suffices gen : ∀ u, Conv T (fun _ => True) s u → Conv T (fun z => z.Over sig) s (u.within sig) by
    rw [← Term.within_self ht]
    exact gen t h.conv
  intro u chain
  induction chain with
  | refl =>
      rw [Term.within_self hs]
      exact .refl s
  | @tail b c _ link ih =>
      have next : b.within sig = c.within sig ∨ Link T (b.within sig) (c.within sig) := by
        rcases link.2.2 with forth | back
        · exact (InContext.within fits forth).imp_right .inl
        · exact (InContext.within fits back).imp Eq.symm .inr
      rcases next with same | link
      · rwa [← same]
      · exact ih.trans (.single (Term.over_within sig b) (Term.over_within sig c) link)

namespace ReductionOrder

variable {gt : Term → Term → Prop} {R E : Theory} {a b : Term}

/-- What is smaller has no variables of its own: otherwise a greater term could stand for such a variable,
and there would be ever smaller terms around it. -/
theorem vars_subset (laws : ReductionOrder sig gt) (ha : a.Over sig) (hb : b.Over sig) (h : gt a b) :
    ∀ v ∈ b.vars, v ∈ a.vars := by
  intro x hx
  by_contra other
  let θ : Var → Term := fun v => if v = x then a else .var v
  have hθ : ∀ v, (θ v).Over sig := by
    intro v
    dsimp only [θ]
    split
    · exact ha
    · exact .var v
  have fixed : a.subst θ = a := by
    apply Term.subst_eq_self
    intro v hv
    have differ : v ≠ x := by
      rintro rfl
      exact other hv
    exact if_neg differ
  have down : gt a (b.subst θ) := by
    have := laws.subst ha hb hθ h
    rwa [fixed] at this
  obtain ⟨q, at_⟩ := Term.exists_subtermAt_var hx
  have inside : (b.subst θ).subtermAt q = some a := by
    have := Term.subtermAt_subst (θ := θ) at_
    rwa [Term.subst_var, show θ x = a from if_pos rfl] at this
  have hb' := hb.subst fun v _ => hθ v
  -- no term has the greater one inside, by induction on the term
  suffices never : ∀ w : Term, w.Over sig → ∀ p, w.subtermAt p ≠ some a from
    never a ha [] Term.subtermAt_nil
  intro w
  induction w using laws.wf.induction with
  | _ w ih =>
      intro hw p here
      have smaller := laws.gauge.gt_replaceAt hw hb' here down
      have hw' := hw.replaceAt (p := p) hb'
      refine ih _ ⟨hw', hw, smaller⟩ hw' (p ++ q) ?_
      rw [Term.subtermAt_replaceAt here, inside]

theorem binding (laws : ReductionOrder sig gt) (desc : laws.gauge.Descends R) : Gauge.Binding R :=
  fun l r rule => laws.vars_subset (desc l r rule).1 (desc l r rule).2.1 (desc l r rule).2.2

/-- Rules and equations whose overlaps are connected lead equal terms to a common one, among terms `D` that
have all terms below them with them and on which every use of an equation is a step. -/
theorem join_of_conv {D : Term → Prop} (laws : ReductionOrder sig gt) (closed : laws.gauge.Closed R E)
    (desc : laws.gauge.Descends R) (fits : laws.gauge.Fits (R ∪ E)) (inSig : ∀ z, D z → z.Over sig)
    (down : ∀ w z, D w → laws.gauge.Below w z → D z)
    (directed : ∀ x y, D x → D y → Link (R ∪ E) x y →
      x = y ∨ laws.gauge.Step R E x y ∨ laws.gauge.Step R E y x)
    (h : Conv (R ∪ E) D a b) : Relation.Join (laws.gauge.Reduces R E) a b := by
  let step : Term → Term → Prop := fun x y => D x ∧ laws.gauge.Step R E x y
  have linked : ∀ x y : Term, D x ∧ D y ∧ Link (R ∪ E) x y → x = y ∨ step x y ∨ step y x := by
    intro x y ⟨hx, hy, link⟩
    exact (directed x y hx hy link).imp_right (.imp (⟨hx, ·⟩) (⟨hy, ·⟩))
  have confluent : ∀ z : Term, ConfluentAt step z := by
    intro z
    refine confluentAt_of_connected laws.wf ?_ linked ?_
    · intro x y ⟨hx, forth⟩
      have hx' := inSig x hx
      exact ⟨Gauge.Step.inSig forth hx', hx', Gauge.Step.gt desc hx' forth⟩
    · intro w x y ⟨hw, stepX⟩ ⟨_, stepY⟩
      have hw' := inSig w hw
      refine Relation.ReflTransGen.mono ?_ _ _ (Gauge.Step.peak closed desc fits hw' stepX stepY)
      intro y z ⟨hy, hz, link⟩
      exact ⟨⟨hy.1, hw', hy.2⟩, ⟨hz.1, hw', hz.2⟩, down w y hw hy, down w z hw hz, link⟩
  obtain ⟨z, left, right⟩ := join_of_chain (P := fun _ => True) linked (fun z _ => confluent z)
    (Relation.ReflTransGen.mono (fun x y link => ⟨trivial, trivial, link⟩) _ _ h)
  exact ⟨z, Relation.ReflTransGen.mono (fun _ _ h => h.2) _ _ left,
    Relation.ReflTransGen.mono (fun _ _ h => h.2) _ _ right⟩

end ReductionOrder

namespace Engine

variable {G : Gauge} {A : Theory} {u : Bool} {e : Engine} {s : Store}

theorem activeEquations_nil (h : e.equations = []) : s.theory e.activeEquations = ∅ := by
  rw [activeEquations, h, ite_self, Store.theory_nil]

theorem theory_of_nil (h : e.equations = []) : e.theory s = s.theory e.rules := by
  rw [theory, h, Store.theory_nil, Set.empty_union]

theorem connects_of_connected {T : Theory} {d c : Equation} {gd ab : Term × Term}
    (h : Connected G s T (d, c)) (meansD : s.Means d gd) (meansC : s.Means c ab) : G.Connects T gd ab := by
  obtain ⟨gd', ab', meansD', meansC', -, connects⟩ := h
  obtain rfl : gd' = gd := Equation.means_unique meansD' meansD
  obtain rfl : ab' = ab := Equation.means_unique meansC' meansC
  exact connects

/-- All overlaps of the rules of a complete run are connected. -/
theorem Presents.closed (inv : Presents G A u s e) (sharp : G.Sharp) (done : e.status = .complete) :
    G.Closed (s.theory e.rules) ∅ := by
  have live : e.status ≠ .failed := by
    rw [done]
    intro h
    cases h
  have peaks := inv.peaks live sharp
  rw [theory_of_nil (inv.complete done)] at peaks
  have only : ∀ d ∈ Gauge.Directions (s.theory e.rules) ∅, ∃ rule ∈ e.rules, s.Means rule d := by
    rintro d (hd | none | none)
    · obtain ⟨rule, mem, means, -⟩ := inv.fine.rules.exists_means hd
      exact ⟨rule, mem, means⟩
    · exact none.elim
    · exact none.elim
  intro gd hgd ab hab
  obtain ⟨d, hd, meansD⟩ := only gd hgd
  obtain ⟨c, hc, meansC⟩ := only ab hab
  rw [Set.union_empty]
  exact connects_of_connected (peaks (d, c) (.inl ⟨hd, hc⟩)) meansD meansC

section
variable {gt : Term → Term → Prop} {D : Term → Prop} {R E : Theory} {e' : Engine} {l r : Term} {b : Bool}
variable {distinct : Prop}

/-- An answer is right about terms `D` that have all terms below them with them, on which every use of an
equation is a step, and on which what follows from the axioms follows. -/
theorem Answers.iff_derives (laws : ReductionOrder sig gt)
    (answers : Answers (laws.gauge distinct) e l r b e' s) (inv : Presents (laws.gauge distinct) A u s e')
    (rules : s.theory e'.rules = R) (active : s.theory e'.activeEquations = E)
    (closed : laws.gauge.Closed R E)
    (balanced : Gauge.Balanced E) (inSig : ∀ z, D z → z.Over sig)
    (down : ∀ w z, D w → laws.gauge.Below w z → D z)
    (directed : ∀ x y, D x → D y → Link (R ∪ E) x y →
      x = y ∨ laws.gauge.Step R E x y ∨ laws.gauge.Step R E y x)
    (hl : D l) (hr : D r) (conv : Derives A l r → Conv (R ∪ E) D l r) :
    b = true ↔ Derives A l r := by
  subst rules active
  have desc := inv.fine.descends
  have known := inv.fine.reducibleActive
  have fits : laws.gauge.Fits (s.theory e'.rules ∪ s.theory e'.activeEquations) := by
    rintro x y (hx | hx)
    · exact known.hasRules.fits x y hx
    · exact known.hasEquations.fits x y hx
  have within : ∀ x z, D x → laws.gauge.Under x z → D z := by
    rintro x z hx ⟨hz, rfl | less⟩
    · exact hx
    · exact down x z hx ⟨hz, less⟩
  constructor
  · intro yes
    obtain ⟨z, left, right⟩ := answers.meets yes
    exact (Rewrites.derives inv left (inSig l hl)).trans (Rewrites.derives inv right (inSig r hr)).symm
  · intro derives
    by_contra no
    obtain ⟨-, x, y, apart, left, right, normal⟩ := answers.parts (eq_false_of_ne_true no)
    obtain ⟨normalX, normalY⟩ := normal trivial
    have toX := Conv.mono (left.descent desc (inSig l hl)) (within l · hl) subset_rfl
    have toY := Conv.mono (right.descent desc (inSig r hr)) (within r · hr) subset_rfl
    have between := (toX.symm.trans (conv derives)).trans toY
    obtain ⟨z, fromX, fromY⟩ := laws.join_of_conv closed desc fits inSig down directed between
    exact apart ((normalX.eq_of_reduces balanced fromX).symm.trans (normalY.eq_of_reduces balanced fromY))

/-- The answer of a complete run whose overlaps are connected is right. -/
theorem Answers.iff_derives_of_complete (laws : ReductionOrder sig gt)
    (answers : Answers (laws.gauge distinct) e l r b e' s) (inv : Presents (laws.gauge distinct) A u s e')
    (done : e'.status = .complete) (closed : laws.gauge.Closed (s.theory e'.rules) ∅) (hl : l.Over sig)
    (hr : r.Over sig) : b = true ↔ Derives A l r := by
  have empty := inv.complete done
  have desc := inv.fine.descends
  have binding := laws.binding desc
  refine answers.iff_derives laws inv rfl (activeEquations_nil empty) closed Gauge.balanced_empty
    (fun _ hz => hz) (fun _ _ _ below => below.1) ?_ hl hr ?_
  · rw [Set.union_empty]
    intro x y hx hy link
    right
    rcases link with forth | back
    · exact .inl (Gauge.Step.of_instance binding forth hy)
    · exact .inr (Gauge.Step.of_instance binding back hx)
  · rw [Set.union_empty]
    intro derives
    have followed := derives.cut fun l r hl => (inv.covers l r hl).derives
    rw [theory_of_nil empty] at followed
    exact followed.conv_over (fun l r hl => ⟨(desc l r hl).1, (desc l r hl).2.1⟩) hl hr

end

end Engine

namespace Problem

open Engine

variable {p : Problem} {gt : Term → Term → Prop} {e : Engine} {s : Store} {ctx : Context}
variable {eq : Equation} {l r : Term} {b : Bool}

/-- A complete run answers that two terms are equal if and only if it follows from the axioms. -/
theorem complete_decides (laws : ReductionOrder sig gt) (decides : p.order.Decides sig gt)
    (posed : p.Posed sig) (distinct : p.start.1.workspace.supply.Distinct) (h : p.Reaches sig e s)
    (done : e.status = .complete) (same : ctx.order = p.order) (means : s.Means eq (l, r))
    (hl : l.Over sig) (hr : r.Over sig) (ok : answer (equal ctx eq) e s = .ok b) :
    b = true ↔ Derives p.theory l r := by
  have obeys : p.order.Obeys laws.gauge := decides.obeys laws
  obtain ⟨wf, le, inv⟩ := Reaches.kept (G := laws.gauge) h posed obeys fun _ => distinct
  have spec := equal_spec (same ▸ obeys) wf (Posed.fits (G := laws.gauge) posed) inv means hl hr
  obtain ⟨inv', answers⟩ := Kept.answers spec ok
  have ended : e.isGroundComplete = true := by simp [isGroundComplete, done]
  have done' := ((answers.ended ended).status ended).trans done
  exact answers.iff_derives_of_complete laws inv' done' (inv'.closed ⟨trivial, trivial⟩ done') hl hr

/-- A table with one name. -/
def inversion : SymbolTable := ⟨["i"], by decide⟩

def inverse (t : Term) : Term := .app (.symbol ⟨0⟩) [t]

theorem inverse_over (h : l.Over (.interned inversion)) : (inverse l).Over (.interned inversion) := by
  refine .app rfl fun a ha => ?_
  obtain rfl := List.mem_singleton.1 ha
  exact h

/-- Two inversions cancel, and the order is a lexicographic path order. -/
def involution : Problem := ofTerms (.lpo inversion []) [(inverse (inverse (.var 0)), .var 0)]

def involutionContext : Context := { symbols := inversion, order := involution.order, fuel := 5 }

theorem involution_posed : involution.Posed (.interned inversion) := by
  refine posed_ofTerms fun d hd => ?_
  obtain rfl := List.mem_singleton.1 hd
  exact ⟨inverse_over (inverse_over (.var 0)), .var 0⟩

/-- Where the run on it ends. -/
def involutionEnd : Engine × Store := involution.runCalls involutionContext [.complete]

theorem complete_decides_involution :
    involutionEnd.1.status = .complete ∧
    Derives involution.theory (inverse (inverse (.var 0))) (.var 0) ∧
    ¬ Derives involution.theory (inverse (.var 0)) (.var 0) := by
  have laws := Lpo.reductionOrder (Precedence.lawful inversion [])
  have decides : involution.order.Decides _ _ := Order.lpo_decides inversion []
  have distinct := distinct_start involution_posed trivial
  have reached : involution.Reaches (.interned inversion) involutionEnd.1 involutionEnd.2 :=
    .call .complete involutionContext .start rfl nofun
  have same : involutionContext.order = involution.order := rfl
  have outcome : involutionEnd.1.status = .complete ∧
      (0 < involutionEnd.2.size ∧ involutionEnd.2.term 0 = .var 0) ∧
      (1 < involutionEnd.2.size ∧ involutionEnd.2.term 1 = inverse (.var 0)) ∧
      (2 < involutionEnd.2.size ∧ involutionEnd.2.term 2 = inverse (inverse (.var 0))) ∧
      answer (equal involutionContext ⟨2, 0⟩) involutionEnd.1 involutionEnd.2 = .ok true ∧
      answer (equal involutionContext ⟨1, 0⟩) involutionEnd.1 involutionEnd.2 = .ok false := by
    decide +kernel
  obtain ⟨done, var, once, twice, yes, no⟩ := outcome
  have cancels : involutionEnd.2.Means ⟨2, 0⟩ (inverse (inverse (.var 0)), .var 0) := ⟨twice, var⟩
  have inverts : involutionEnd.2.Means ⟨1, 0⟩ (inverse (.var 0), .var 0) := ⟨once, var⟩
  refine ⟨done, ?_, ?_⟩
  · exact (complete_decides laws decides involution_posed distinct reached done same cancels
      (inverse_over (inverse_over (.var 0))) (.var 0) yes).1 rfl
  · intro derives
    cases (complete_decides laws decides involution_posed distinct reached done same inverts
      (inverse_over (.var 0)) (.var 0) no).2 derives

end Problem

end OrderedCompletion
