import OrderedCompletion.Proofs.Peaks
import OrderedCompletion.Proofs.Rewriting

/-! Rewriting whose overlaps are connected has unique normal forms. -/

namespace OrderedCompletion

section
open Relation
variable {α : Type} {lt step link : α → α → Prop} {P : α → Prop} {a b w : α}

/-- Whatever a term rewrites to meets again. -/
def ConfluentAt (step : α → α → Prop) (w : α) : Prop :=
  ∀ a b, ReflTransGen step w a → ReflTransGen step w b → Join (ReflTransGen step) a b

/-- A chain through terms that are confluent can be flattened. -/
theorem join_of_chain (directed : ∀ a b, link a b → a = b ∨ step a b ∨ step b a)
    (confluent : ∀ z, P z → ConfluentAt step z)
    (chain : ReflTransGen (fun x y => P x ∧ P y ∧ link x y) a b) : Join (ReflTransGen step) a b := by
  induction chain with
  | refl => exact ⟨a, .refl, .refl⟩
  | @tail b c _ next ih =>
      obtain ⟨v, hav, hbv⟩ := ih
      obtain ⟨hb, -, linked⟩ := next
      rcases directed b c linked with rfl | forth | back
      · exact ⟨v, hav, hbv⟩
      · obtain ⟨u, hvu, hcu⟩ := confluent b hb v c hbv (.single forth)
        exact ⟨u, hav.trans hvu, hcu⟩
      · exact ⟨v, hav, .head back hbv⟩

/-- If the results of two steps from a term are connected below it, every term is confluent. The induction
is on the term at the top of the peak. -/
theorem confluentAt_of_connected (wf : WellFounded lt) (down : ∀ a b, step a b → lt b a)
    (directed : ∀ a b, link a b → a = b ∨ step a b ∨ step b a)
    (peak : ∀ w a b, step w a → step w b → ReflTransGen (fun x y => lt x w ∧ lt y w ∧ link x y) a b) :
    ConfluentAt step w := by
  induction w using wf.induction with
  | _ w ih =>
      intro a b ha hb
      rcases ha.cases_head with rfl | ⟨a₁, stepA, restA⟩
      · exact ⟨b, hb, .refl⟩
      · rcases hb.cases_head with rfl | ⟨b₁, stepB, restB⟩
        · exact ⟨a, .refl, ha⟩
        · obtain ⟨v, hav, hbv⟩ := join_of_chain directed ih (peak w a₁ b₁ stepA stepB)
          obtain ⟨u, hau, hvu⟩ := ih a₁ (down w a₁ stepA) a v restA hav
          obtain ⟨z, hbz, huz⟩ := ih b₁ (down w b₁ stepB) b u restB (hbv.trans hvu)
          exact ⟨z, hau.trans huz, hbz⟩

end

namespace Gauge

variable {G : Gauge} {R E : Theory} {l r s t u w a b : Term} {ρ ρ' : Var → Term}

/-- Rules, and equations in both directions. -/
def Directions (R E : Theory) : Theory := R ∪ (E ∪ {d | (d.2, d.1) ∈ E})

/-- All overlaps are connected. -/
def Closed (G : Gauge) (R E : Theory) : Prop :=
  ∀ gd ∈ Directions R E, ∀ ab ∈ Directions R E, G.Connects (R ∪ E) gd ab

theorem Directions.link (h : (l, r) ∈ Directions R E) : Link (R ∪ E) (l.subst ρ) (r.subst ρ) := by
  rcases h with rule | forth | back
  · exact .inl (.root ⟨l, r, ρ, .inl rule, rfl, rfl⟩)
  · exact .inl (.root ⟨l, r, ρ, .inr forth, rfl, rfl⟩)
  · exact .inr (.root ⟨r, l, ρ, .inr back, rfl, rfl⟩)

theorem Directions.fits (fits : G.Fits (R ∪ E)) (h : (l, r) ∈ Directions R E) :
    l.Over G.sig ∧ r.Over G.sig := by
  rcases h with rule | forth | back
  · exact fits l r (.inl rule)
  · exact fits l r (.inr forth)
  · exact (fits r l (.inr back)).symm

/-- The right sides have no variables of their own. -/
def Binding (R : Theory) : Prop := ∀ l r, (l, r) ∈ R → ∀ v ∈ r.vars, v ∈ l.vars

/-- What stands for a variable that does not occur does not matter. -/
theorem exists_subst_free (vars : ∀ v ∈ r.vars, v ∈ l.vars) (θ : Var → Term) :
    ∃ η : Var → Term, l.subst η = l.subst θ ∧ r.subst η = r.subst θ ∧
      ∀ v, v ∉ l.vars → ∃ x, η v = .var x := by
  refine ⟨fun v => if v ∈ l.vars then θ v else .var v, ?_, ?_, ?_⟩
  · apply Term.subst_congr
    intro v hv
    exact if_pos hv
  · apply Term.subst_congr
    intro v hv
    exact if_pos (vars v hv)
  · intro v hv
    exact ⟨v, if_neg hv⟩

/-- A use of a rule is a step. -/
theorem Step.of_instance (binding : Binding R) (h : InContext (Instance R) s t) (ht : t.Over G.sig) :
    G.Step R E s t := by
  induction h with
  | root top =>
      obtain ⟨l, r, θ, rule, rfl, rfl⟩ := top
      obtain ⟨η, sameL, sameR, free⟩ := exists_subst_free (binding l r rule) θ
      exact .root ⟨ht, l, r, η, sameL, sameR, free, .inl rule⟩
  | @arg s t f pre post _ ih => exact .arg f pre post (ih ((Term.over_app_iff.1 ht).2 t (by simp)))

theorem Root.exists_direction (desc : G.Descends R) (hs : s.Over G.sig) (h : G.Root R E s t) :
    ∃ l r θ, (l, r) ∈ Directions R E ∧ (∀ v, (θ v).Over G.sig) ∧ l.subst θ = s ∧ r.subst θ = t ∧
      G.gt s t := by
  have down := h.gt desc hs
  obtain ⟨ht, l, r, θ, rfl, rfl, -, use⟩ := h
  obtain ⟨η, hη, sameL, sameR⟩ := exists_over_subst hs ht
  refine ⟨l, r, η, ?_, hη, sameL, sameR, down⟩
  rcases use with rule | ⟨forth | back, -⟩
  · exact .inl rule
  · exact .inr (.inl forth)
  · exact .inr (.inr back)

/-- A step at the top of a term and another one anywhere in it. -/
theorem Root.peak (closed : G.Closed R E) (desc : G.Descends R) (fits : G.Fits (R ∪ E))
    (hw : w.Over G.sig) (h : G.Root R E w a) (h' : G.Step R E w b) :
    Conv (R ∪ E) (G.Below w) a b := by
  have belowB : G.Below w b := ⟨Step.inSig h' hw, Step.gt desc hw h'⟩
  obtain ⟨l, r, ρ, mem, hρ, rfl, rfl, down⟩ := h.exists_direction desc hw
  obtain ⟨hl, hr⟩ := Directions.fits fits mem
  rcases InContext.of_subst hl h' with ⟨p, u, t, at_, app, top, rfl⟩ | ⟨x, t, step, chain⟩
  · have hu := (hl.subtermAt at_).subst fun v _ => hρ v
    obtain ⟨l', r', τ, mem', hτ, same, rfl, down'⟩ := top.exists_direction desc hu
    exact closed (l, r) mem (l', r') mem' p u ρ τ hρ hτ at_ app same.symm down (same ▸ down')
  · -- both sides go on to the instance in which the variable stands for the result of the step
    have belowA : G.Below (l.subst ρ) (r.subst ρ) := ⟨hr.subst fun v _ => hρ v, down⟩
    have left := Reduces.descent desc (InContext.chain_update step r) belowA.1
    have right := Reduces.descent desc chain belowB.1
    have link := Directions.link (ρ := Function.update ρ x t) mem
    have middle := Conv.single (P := G.Below (l.subst ρ)) (belowB.under hw (right.under belowB.1))
      (belowA.under hw (left.under belowA.1)) link
    exact (left.below hw belowA).trans (middle.symm.trans (right.below hw belowB).symm)

/-- Two steps in different arguments. -/
theorem Step.beside {f : Head} {pre mid post : List Term} {s' t' : Term} (desc : G.Descends R)
    (hw : (Term.app f (pre ++ s :: (mid ++ s' :: post))).Over G.sig) (h : G.Step R E s t)
    (h' : G.Step R E s' t') :
    Conv (R ∪ E) (G.Below (.app f (pre ++ s :: (mid ++ s' :: post))))
      (.app f (pre ++ t :: (mid ++ s' :: post))) (.app f (pre ++ s :: (mid ++ t' :: post))) := by
  have toA : G.Step R E (.app f (pre ++ s :: (mid ++ s' :: post))) (.app f (pre ++ t :: (mid ++ s' :: post))) :=
    .arg f pre _ h
  have toB : G.Step R E (.app f (pre ++ s :: (mid ++ s' :: post))) (.app f (pre ++ s :: (mid ++ t' :: post))) := by
    simpa using InContext.arg f (pre ++ s :: mid) post h'
  obtain ⟨u, onA, onB⟩ : ∃ u, G.Step R E (.app f (pre ++ t :: (mid ++ s' :: post))) u ∧
      G.Step R E (.app f (pre ++ s :: (mid ++ t' :: post))) u := InContext.disjoint h h'
  have belowA : G.Below _ _ := ⟨Step.inSig toA hw, Step.gt desc hw toA⟩
  have belowB : G.Below _ _ := ⟨Step.inSig toB hw, Step.gt desc hw toB⟩
  have belowC : G.Below _ _ := belowA.under hw ⟨Step.inSig onA belowA.1, .inr (Step.gt desc belowA.1 onA)⟩
  exact (Conv.single belowA belowC (Step.link onA)).trans (Conv.single belowC belowB (Step.link onB).symm)

/-- Two steps from a term. -/
theorem Step.peak (closed : G.Closed R E) (desc : G.Descends R) (fits : G.Fits (R ∪ E))
    (hw : w.Over G.sig) (h : G.Step R E w a) (h' : G.Step R E w b) :
    Conv (R ∪ E) (G.Below w) a b :=
  InContext.peak (I := Term.Over G.sig) (M := fun w a b => Conv (R ∪ E) (G.Below w) a b)
    (fun hw => (Term.over_app_iff.1 hw).2 _ (by simp))
    (fun hw h h' => h.peak closed desc fits hw h')
    (fun h => h.symm)
    (fun hw h => h.arg fun z hz => ⟨over_arg hw hz.1, G.arg hw (over_arg hw hz.1) hz.2⟩)
    (fun hw h h' => Step.beside desc hw h h') hw h h'

theorem InContext.exists_subtermAt {root : Term → Term → Prop} (h : InContext root s t) :
    ∃ p u v, s.subtermAt p = some u ∧ root u v := by
  induction h with
  | @root s t top => exact ⟨[], s, t, Term.subtermAt_nil, top⟩
  | @arg s t f pre post _ ih =>
      obtain ⟨p, u, v, at_, top⟩ := ih
      have place : (pre ++ s :: post)[pre.length]? = some s := by simp
      exact ⟨pre.length :: p, u, v, by rw [Term.subtermAt_cons place, at_], top⟩

/-- Both sides of every equation have the same variables. -/
def Balanced (E : Theory) : Prop := ∀ l r, (l, r) ∈ E → ∀ v, v ∈ l.vars ↔ v ∈ r.vars

theorem balanced_empty : Balanced ∅ := fun _ _ none => none.elim

theorem Balanced.vars_subset (h : Balanced E) (eq : (l, r) ∈ E ∨ (r, l) ∈ E) :
    ∀ v ∈ r.vars, v ∈ l.vars := by
  intro v hv
  rcases eq with forth | back
  · exact (h l r forth v).2 hv
  · exact (h r l back v).1 hv

/-- A settled term cannot be rewritten. -/
theorem Settled.not_step (balanced : Balanced E) (h : G.Settled R E s) : ¬ G.Step R E s t := by
  intro step
  obtain ⟨p, u, v, at_, -, l, r, θ, same, rfl, -, use⟩ := InContext.exists_subtermAt step
  rcases use with rule | ⟨eq, down⟩
  · exact (h p u at_).rules l r rule θ same
  · obtain ⟨η, same', refused, -⟩ := (h p u at_).equations l r eq θ same
    have agree := Term.eq_of_subst_eq (same'.trans same.symm)
    rw [Term.subst_congr fun v hv => agree v (balanced.vars_subset eq v hv)] at refused
    exact refused down

theorem Settled.eq_of_reduces (balanced : Balanced E) (h : G.Settled R E s)
    (chain : G.Reduces R E s t) : t = s := by
  rcases chain.cases_head with same | ⟨u, step, -⟩
  · exact same.symm
  · exact absurd step (h.not_step balanced)

end Gauge
end OrderedCompletion
