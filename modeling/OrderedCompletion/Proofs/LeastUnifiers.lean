import Mathlib.Logic.Equiv.Basic
import OrderedCompletion.Proofs.Judging
import OrderedCompletion.Proofs.Sizes
import OrderedCompletion.Proofs.Unifiers

/-! Renaming of variables, and what unification makes of renamed terms: of the most general unifiers it finds
the one that sends no variable to a greater one. -/

namespace OrderedCompletion

namespace Term

variable {s t : Term} {ρ ρ' : Equiv.Perm Var} {θ : Var → Term} {f : Head} {args : List Term} {v : Var}

/-- Replaces variables by others, different ones by different ones. -/
def rename (ρ : Equiv.Perm Var) (t : Term) : Term := t.subst fun v => .var (ρ v)

@[simp] theorem rename_var : (var v).rename ρ = .var (ρ v) := rfl

@[simp] theorem rename_app : (app f args).rename ρ = .app f (args.map (rename ρ)) := subst_app

@[simp] theorem rename_symm (ρ : Equiv.Perm Var) (t : Term) : (t.rename ρ).rename ρ.symm = t := by
  rw [rename, rename, subst_subst]
  exact subst_eq_self fun v _ => congrArg var (ρ.symm_apply_apply v)

theorem rename_injective (ρ : Equiv.Perm Var) : Function.Injective (rename ρ) :=
  Function.LeftInverse.injective (rename_symm ρ)

theorem rename_congr (h : ∀ v ∈ t.vars, ρ' v = ρ v) : t.rename ρ' = t.rename ρ :=
  subst_congr fun v hv => congrArg var (h v hv)

theorem restores_rename (ρ : Equiv.Perm Var) (t : Term) :
    Restores (fun v => .var (ρ v)) (fun v => .var (ρ.symm v)) t := rename_symm ρ t

theorem mem_vars_rename : v ∈ (t.rename ρ).vars ↔ ∃ w ∈ t.vars, v = ρ w := by
  simp [rename, mem_vars_subst]

theorem rename_subst (η : Var → Term) : (t.rename ρ).subst η = t.subst fun v => η (ρ v) := subst_subst

theorem subst_rename : (t.subst θ).rename ρ = t.subst fun v => (θ v).rename ρ := subst_subst

theorem Over.rename {sig : Signature} (h : t.Over sig) : (t.rename ρ).Over sig := h.subst fun _ _ => .var _

@[simp] theorem wordSize_rename : (t.rename ρ).wordSize = t.wordSize :=
  congrArg (· % 2 ^ 32) (Kbo.size_subst_of_restores (restores_rename ρ t))

/-- The relation holds of renamed terms exactly if it holds of the terms. -/
theorem Blind.rename_iff {gt : Term → Term → Prop} (blind : Blind gt) :
    gt (s.rename ρ) (t.rename ρ) ↔ gt s t := by
  refine ⟨fun h => ?_, blind.renamable s t _ _ (restores_rename ρ s)⟩
  have back := blind.renamable _ _ _ _ (restores_rename ρ.symm (s.rename ρ)) h
  rwa [← rename, ← rename, rename_symm, rename_symm] at back

end Term

open Term

variable {a b : Term} {ρ : Equiv.Perm Var} {θ η : Var → Term} {v w : Var}

/-- The same substitution of renamed variables. -/
def conjugate (ρ : Equiv.Perm Var) (θ : Var → Term) (v : Var) : Term := (θ (ρ.symm v)).rename ρ

theorem conjugate_apply (v : Var) : conjugate ρ θ (ρ v) = (θ v).rename ρ := by
  rw [conjugate, Equiv.symm_apply_apply]

theorem rename_subst_conjugate (t : Term) : (t.rename ρ).subst (conjugate ρ θ) = (t.subst θ).rename ρ := by
  rw [rename_subst, subst_rename]
  exact subst_congr fun v _ => conjugate_apply v

namespace IsMgu

theorem idempotent (h : IsMgu a b θ) (hw : w ∈ (θ v).vars) : θ w = .var w :=
  eq_of_subst_eq ((h.general θ h.unifies v).trans subst_self.symm) w hw

/-- Variables of neither term stand for themselves. -/
theorem outside (h : IsMgu a b θ) (ha : v ∉ a.vars) (hb : v ∉ b.vars) : θ v = .var v := by
  -- the variable may be sent to any term
  have image : ∀ u : Term, (θ v).subst (fun w => if w = v then u else θ w) = u := by
    intro u
    have same : ∀ t : Term, v ∉ t.vars → t.subst (fun w => if w = v then u else θ w) = t.subst θ :=
      fun t ht => subst_congr fun w hw => if_neg (ne_of_mem_of_not_mem hw ht)
    have all := h.general _ ((same a ha).trans (h.unifies.trans (same b hb).symm)) v
    rwa [if_pos rfl] at all
  obtain ⟨w, hw⟩ := exists_var_of_subst_eq_var (image (.var v))
  rw [hw]
  by_contra other
  have apart : w ≠ v := fun here => other (here ▸ rfl)
  have once := image (.var v)
  have twice := image (.app (.frozen 0) [])
  rw [hw, subst_var, if_neg apart] at once twice
  cases once.symm.trans twice

theorem rename (h : IsMgu a b θ) (ρ : Equiv.Perm Var) :
    IsMgu (a.rename ρ) (b.rename ρ) (conjugate ρ θ) where
  unifies := by rw [rename_subst_conjugate, rename_subst_conjugate, h.unifies]
  general := by
    intro τ same v
    rw [rename_subst, rename_subst] at same
    rw [conjugate, rename_subst, h.general _ same, Equiv.apply_symm_apply]
  inSig := by
    intro sig ha hb v
    have back : ∀ {t : Term}, (t.rename ρ).Over sig → t.Over sig := fun ht => by
      have old := ht.rename (ρ := ρ.symm)
      rwa [rename_symm] at old
    exact (h.inSig sig (back ha) (back hb) _).rename

end IsMgu

/-- No variable is sent to a greater one. -/
def Least (θ : Var → Term) : Prop := ∀ v w, θ v = .var w → w ≤ v

/-- Only one most general unifier is like this. -/
theorem IsMgu.eq_of_least (h : IsMgu a b θ) (h' : IsMgu a b η) (least : Least θ) (least' : Least η) :
    θ = η := by
  funext v
  -- what is left by the one is left by the other
  have fixed : ∀ w ∈ (θ v).vars, η w = .var w := by
    intro w hw
    have back := h'.general θ h.unifies w
    rw [h.idempotent hw] at back
    obtain ⟨x, hx⟩ := exists_var_of_subst_eq_var back
    rw [hx, subst_var] at back
    rw [hx, Nat.le_antisymm (least' w x hx) (least x w back)]
  rw [← h.general η h'.unifies v, subst_eq_self fixed]

/-- Renaming keeps it if the variables of the terms keep their order. -/
theorem IsMgu.least_rename (h : IsMgu a b θ) (least : Least θ)
    (mono : MonotoneOn ρ {v | v ∈ a.vars ∨ v ∈ b.vars}) : Least (conjugate ρ θ) := by
  intro v w hw
  obtain ⟨v, rfl⟩ := ρ.surjective v
  obtain ⟨w, rfl⟩ := ρ.surjective w
  rw [conjugate_apply] at hw
  have there : θ v = .var w := rename_injective ρ hw
  by_cases known : v ∈ a.vars ∨ v ∈ b.vars
  · rcases h.vars (v := v) (w := w) (there ▸ mem_vars_var.2 rfl) with rfl | hw
    · exact le_rfl
    · exact mono hw known (least v w there)
  · rw [not_or] at known
    have self := h.outside known.1 known.2
    rw [there] at self
    cases self
    exact le_rfl

namespace Store

variable {s : Store} {σ : Subst} {r q : Ref}

theorem Resolves.least (h : s.Resolves σ θ) : Least θ := by
  obtain ⟨rank, ranked⟩ := h.ranked
  intro v w hw
  induction hn : rank v using Nat.strongRecOn generalizing v with
  | ind n ih =>
      cases hv : σ.find? v with
      | none =>
          rw [h.free v hv] at hw
          cases hw
          exact le_rfl
      | some q =>
          rw [h.solves v q hv] at hw
          obtain ⟨x, hx⟩ := exists_var_of_subst_eq_var hw
          rw [hx, subst_var] at hw
          have lower := ranked v q hv x (hx ▸ mem_vars_var.2 rfl)
          exact (ih (rank x) (hn ▸ lower) x hw rfl).trans (h.sinks v q hv x hx)

/-- What unification finds is the most general unifier that sends no variable to a greater one. -/
theorem unify?_least (wf : s.WellFormed) (ha : s.Denotes r a) (hb : s.Denotes q b) :
    s.Ensures (unify? r q).run fun o s' => match o with
      | some σ => ∃ θ, s'.Binds σ θ ∧ IsMgu a b θ ∧ Least θ
      | none => ∀ τ, a.subst τ ≠ b.subst τ := by
  have least : s.Ensures (unify? r q).run fun o s' => ∀ σ, o = some σ →
      ∃ θ, s'.Binds σ θ ∧ Least θ := by
    have known : ∀ pair ∈ [(r, q)], pair.1 < s.size ∧ pair.2 < s.size :=
      List.forall_mem_singleton.2 ⟨ha.1, hb.1⟩
    rw [unify?, unifyPairs?]
    refine Ensures.bindLift (Ensures.get wf) ?_
    rintro _ s₁ - - ⟨rfl, rfl⟩
    refine Ensures.bindOption
      (unifyAll_spec wf (hereditary_inside wf) known (inside_inputs known) (Nat.le_refl _)) ?_ ?_
    · rintro ω s₂ wf₂ le₂ ⟨-, ⟨θ, hθ, -⟩, -⟩
      refine Ensures.map (resolve_spec wf₂ (hθ.mono wf wf₂ le₂).chains) fun σ s₃ _ _ h => ?_
      rintro _ ⟨⟩
      exact ⟨θ, h.1, hθ.least⟩
    · rintro s₂ - - - _ ⟨⟩
  refine ((unify?_spec wf ha hb).and least).mono fun o s' _ _ h => ?_
  cases o with
  | none => exact h.1
  | some σ =>
      obtain ⟨⟨θ, binds, mgu⟩, found⟩ := h
      obtain ⟨η, binds', least⟩ := found σ rfl
      obtain rfl : θ = η := binds.image_eq.symm.trans binds'.image_eq
      exact ⟨θ, binds, mgu, least⟩

end Store
end OrderedCompletion
