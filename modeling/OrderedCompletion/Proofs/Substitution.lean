import OrderedCompletion.Equation
import OrderedCompletion.Proofs.StoreActions

/-! What applying a substitution of references does to the terms behind them. -/

namespace OrderedCompletion

namespace Subst

theorem find?_bind (σ : Subst) (v w : Var) (r : Ref) :
    (σ.bind v r).find? w = if w = v then some r else σ.find? w := by
  rw [find?, bind, List.lookup_cons]
  by_cases same : w = v
  · rw [if_pos same, beq_iff_eq.2 same]
  · rw [if_neg same, beq_false_of_ne same]
    rfl

theorem find?_eq_none {σ : Subst} {v : Var} : σ.find? v = none ↔ σ.isBound v = false := by
  rw [isBound, Option.isSome_eq_false_iff, Option.isNone_iff_eq_none]

end Subst

namespace Store

variable {s s' : Store} {σ : Subst} {θ η : Var → Term} {r q : Ref} {t : Term}

/-- Bound variables are bound to references to their images. -/
def Agrees (s : Store) (σ : Subst) (θ : Var → Term) : Prop :=
  ∀ v q, σ.find? v = some q → s.Denotes q (θ v)

/-- The substitution of references stands for the one of terms: other variables are their own images. -/
structure Binds (s : Store) (σ : Subst) (θ : Var → Term) : Prop where
  bound : s.Agrees σ θ
  free : ∀ v, σ.find? v = none → θ v = .var v

/-- Variables are bound to references that lead somewhere. -/
def Knows (s : Store) (σ : Subst) : Prop := ∀ v q, σ.find? v = some q → q < s.size

/-- The terms that variables are bound to. -/
def image (s : Store) (σ : Subst) (v : Var) : Term :=
  match σ.find? v with
  | some q => s.term q
  | none => .var v

theorem image_bound {v : Var} (h : σ.find? v = some q) : s.image σ v = s.term q := by
  rw [image, h]

theorem image_free {v : Var} (h : σ.find? v = none) : s.image σ v = .var v := by
  rw [image, h]

theorem Knows.binds (h : s.Knows σ) : s.Binds σ (s.image σ) where
  bound := fun v q hv => ⟨h v q hv, (image_bound hv).symm⟩
  free := fun _ hv => image_free hv

theorem Agrees.mono (h : s.Agrees σ θ) (wf : s.WellFormed) (wf' : s'.WellFormed) (le : s ≤ s') :
    s'.Agrees σ θ :=
  fun v q hv => (h v q hv).mono wf wf' le

theorem Binds.mono (h : s.Binds σ θ) (wf : s.WellFormed) (wf' : s'.WellFormed) (le : s ≤ s') :
    s'.Binds σ θ :=
  ⟨h.bound.mono wf wf' le, h.free⟩

theorem Binds.bind (h : s.Binds σ θ) {v : Var} (hq : s.Denotes q t) :
    s.Binds (σ.bind v q) fun w => if w = v then t else θ w where
  bound := by
    intro w p hw
    rw [Subst.find?_bind] at hw
    dsimp only
    split at hw
    · rename_i same
      cases hw
      rw [if_pos same]
      exact hq
    · rename_i other
      rw [if_neg other]
      exact h.bound w p hw
  free := by
    intro w hw
    rw [Subst.find?_bind] at hw
    split at hw
    · cases hw
    · rename_i other
      rw [if_neg other]
      exact h.free w hw

theorem agrees_empty (θ : Var → Term) : s.Agrees .empty θ := by
  intro v q hv
  cases hv

theorem binds_empty : s.Binds .empty .var where
  bound := agrees_empty .var
  free := fun _ _ => rfl

theorem applyWithin_spec {n : Nat} (wf : s.WellFormed) (hb : s.Binds σ θ) (hd : s.Denotes r t)
    (hn : r < n) : s.Ensures (applyWithin σ n r) fun out s' => s'.Denotes out (t.subst θ) := by
  induction n generalizing s r t with
  | zero => exact absurd hn (Nat.not_lt_zero r)
  | succ n ih =>
      rw [applyWithin]
      refine (vars_spec wf hd).bind ?_
      rintro _ s₁ wf₁ le₁ ⟨rfl, same₁⟩
      have hd₁ := hd.mono wf wf₁ le₁
      have hb₁ := hb.mono wf wf₁ le₁
      split
      · rename_i none
        refine .pure wf₁ ?_
        rw [Term.subst_eq_self fun v hv => ?_]
        · exact hd₁
        · simp only [Bool.not_eq_true', List.any_eq_false] at none
          exact hb.free v (Subst.find?_eq_none.2 (eq_false_of_ne_true (none v hv)))
      · refine (Ensures.get wf₁).bind ?_
        rintro _ s₂ - - ⟨rfl, rfl⟩
        obtain ⟨node, hnode⟩ := exists_node hd₁.1
        rw [hnode]
        cases node with
        | var v =>
            refine .pure wf₁ ?_
            rw [← hd₁.2, wf₁.below.term_var hnode, Term.subst_var]
            cases hv : σ.find? v with
            | none =>
                rw [hb.free v hv, Option.getD_none]
                exact wf₁.denotes_var hnode
            | some q => exact hb₁.bound v q hv
        | app f args =>
            have inner : s₂.Ensures (args.mapM (applyWithin σ n)) fun outs s₃ =>
                True ∧ List.Forall₂ (fun a out => s₃.Denotes out ((s₂.term a).subst θ)) args outs := by
              refine Ensures.mapM wf₁ trivial ?_ fun a ha s₃ wf₃ le₃ _ => ?_
              · exact fun a out sa sb wfa wfb le h => h.mono wfa wfb le
              · have lt := wf₁.below hnode a ha
                have ha' : s₂.Denotes a (s₂.term a) := denotes_term (Nat.lt_trans lt hd₁.1)
                have small := Nat.lt_of_lt_of_le lt (Nat.le_of_lt_succ hn)
                refine (ih wf₃ (hb₁.mono wf₁ wf₃ le₃) (ha'.mono wf₁ wf₃ le₃) small).mono ?_
                exact fun out s₄ _ _ h => ⟨trivial, h⟩
            refine inner.bind fun outs s₃ wf₃ le₃ h => ?_
            have all : s₃.DenotesAll outs (args.map fun a => (s₂.term a).subst θ) :=
              List.forall₂_map_right_iff.2 h.2.flip
            refine (app_spec wf₃ all).mono fun out s₄ _ _ hout => ?_
            rw [← hd₁.2, wf₁.below.term_app hnode, Term.subst_app, List.map_map]
            exact hout

theorem apply_spec (wf : s.WellFormed) (hb : s.Binds σ θ) (hd : s.Denotes r t) :
    s.Ensures (apply σ r) fun out s' => s'.Denotes out (t.subst θ) := by
  rw [apply]
  split
  · rename_i none
    refine .pure wf ?_
    rw [Term.subst_eq_self fun v _ => ?_]
    · exact hd
    · rw [Subst.isEmpty, List.isEmpty_iff] at none
      exact hb.free v (by rw [Subst.find?, none, List.lookup_nil])
  · refine (Ensures.get wf).bind ?_
    rintro _ s' - - ⟨rfl, rfl⟩
    exact applyWithin_spec wf hb hd (Nat.lt_succ_of_lt hd.1)

end Store

/-- The references of an equation denote its sides. -/
def Store.Means (s : Store) (e : Equation) (eq : Term × Term) : Prop :=
  s.Denotes e.lhs eq.1 ∧ s.Denotes e.rhs eq.2

namespace Equation

variable {s s' : Store} {σ : Subst} {θ : Var → Term} {e d : Equation} {l r : Term} {eq : Term × Term}

theorem means_mono (h : s.Means e eq) (wf : s.WellFormed) (wf' : s'.WellFormed) (le : s ≤ s') :
    s'.Means e eq := ⟨h.1.mono wf wf' le, h.2.mono wf wf' le⟩

theorem means_unique {eq' : Term × Term} (h : s.Means e eq) (h' : s.Means e eq') : eq = eq' :=
  Prod.ext (h.1.unique h'.1) (h.2.unique h'.2)

theorem means_inj (h : s.Means e eq) (h' : s.Means d eq) (wf : s.WellFormed) : e = d := by
  rw [Equation.mk.injEq]
  exact ⟨h.1.inj h'.1 wf, h.2.inj h'.2 wf⟩

theorem means_same (h : Store.SameTerms s s') : s'.Means e eq ↔ s.Means e eq := and_congr h.denotes h.denotes

theorem isTrivial_iff (h : s.Means e (l, r)) (wf : s.WellFormed) : e.isTrivial = true ↔ l = r :=
  decide_eq_true_iff.trans (h.1.eq_iff h.2 wf)

theorem means_reversed (h : s.Means e (l, r)) : s.Means e.reversed (r, l) := ⟨h.2, h.1⟩

theorem apply_spec (wf : s.WellFormed) (hb : s.Binds σ θ) (h : s.Means e (l, r)) :
    s.Ensures (e.apply σ) fun e' s' => s'.Means e' (l.subst θ, r.subst θ) := by
  refine (Store.apply_spec wf hb h.1).bind fun l' s₁ wf₁ le₁ hl => ?_
  refine (Store.apply_spec wf₁ (hb.mono wf wf₁ le₁) (h.2.mono wf wf₁ le₁)).bind ?_
  exact fun r' s₂ wf₂ le₂ hr => .pure wf₂ ⟨hl.mono wf₁ wf₂ le₂, hr⟩

theorem vars_spec (wf : s.WellFormed) (h : s.Means e (l, r)) :
    s.Ensures e.vars fun vs s' => vs = sortVars (l.vars ++ r.vars) ∧ Store.SameTerms s s' := by
  refine (Store.vars_spec wf h.1).bind fun vs s₁ wf₁ le₁ hl => ?_
  refine (Store.vars_spec wf₁ (h.2.mono wf wf₁ le₁)).bind fun ws s₂ wf₂ le₂ hr => ?_
  exact .pure wf₂ ⟨by rw [hl.1, hr.1], hl.2.trans hr.2⟩

end Equation
end OrderedCompletion
