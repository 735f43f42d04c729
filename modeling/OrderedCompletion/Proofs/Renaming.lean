import Mathlib.Logic.Relation
import OrderedCompletion.Proofs.Terms

/-! Uses of directed equations, passes over terms and normal forms, as functions on terms that do not look
at the names of variables. -/

namespace OrderedCompletion.Term

variable {s t u : Term} {ρ ρ' : Var → Term}

/-- The second substitution takes back what the first one makes of a term. -/
def Restores (ρ ρ' : Var → Term) (t : Term) : Prop := (t.subst ρ).subst ρ' = t

theorem restores_iff : Restores ρ ρ' t ↔ ∀ v ∈ t.vars, (ρ v).subst ρ' = .var v := by
  rw [Restores, subst_subst]
  constructor
  · intro h
    apply eq_of_subst_eq
    rw [h, subst_eq_self fun _ _ => rfl]
  · exact subst_eq_self

theorem Restores.of_vars (h : Restores ρ ρ' t) (sub : ∀ v ∈ u.vars, v ∈ t.vars) : Restores ρ ρ' u :=
  restores_iff.2 fun v hv => restores_iff.1 h v (sub v hv)

theorem Restores.symm (h : Restores ρ ρ' t) : Restores ρ' ρ (t.subst ρ) := congrArg (subst ρ) h

/-- The relation does not depend on the names of variables. -/
def Renamable (ok : Term → Term → Prop) : Prop :=
  ∀ (s t : Term) (ρ ρ' : Var → Term), Restores ρ ρ' s → ok s t → ok (s.subst ρ) (t.subst ρ)

/-- The relation that admits every use. -/
def Anywhere (_ _ : Term) : Prop := True

theorem renamable_anywhere : Renamable Anywhere := fun _ _ _ _ _ _ => trivial

/-- The relation does not depend on the names of variables, and what is smaller has no others. -/
structure Blind (gt : Term → Term → Prop) : Prop where
  vars : ∀ {s t : Term}, gt s t → ∀ v ∈ t.vars, v ∈ s.vars
  renamable : Renamable gt

/-- What becomes a variable is one. -/
theorem exists_var_of_subst_eq_var {v : Var} (h : t.subst ρ = .var v) : ∃ w, t = .var w := by
  cases t with
  | var w => exact ⟨w, rfl⟩
  | app f args =>
      rw [subst_app] at h
      cases h
  | missing r => cases h

/-- The function does not depend on the names of variables and introduces none. -/
structure Equivariant (f : Term → Term) : Prop where
  vars : ∀ t, ∀ v ∈ (f t).vars, v ∈ t.vars
  rename : ∀ {t : Term} {ρ ρ' : Var → Term}, Restores ρ ρ' t → f (t.subst ρ) = (f t).subst ρ

theorem Equivariant.comp {f g : Term → Term} (hf : Equivariant f) (hg : Equivariant g) :
    Equivariant (f ∘ g) where
  vars := fun t v hv => hg.vars t v (hf.vars (g t) v hv)
  rename := by
    intro t ρ ρ' h
    rw [Function.comp, Function.comp, hg.rename h, hf.rename (h.of_vars (hg.vars t))]

section
variable {ok : Term → Term → Prop} {d : Term × Term} {ds : List (Term × Term)}

/-- A directed equation leads from one term to another at the top, where the relation admits that. The right
side has only variables of the left one. -/
structure Fires (ok : Term → Term → Prop) (d : Term × Term) (t u : Term) : Prop where
  bound : ∀ v ∈ d.2.vars, v ∈ d.1.vars
  admitted : ok t u
  leads : ∃ θ : Var → Term, d.1.subst θ = t ∧ d.2.subst θ = u

theorem Fires.unique {u' : Term} (h : Fires ok d t u) (h' : Fires ok d t u') : u = u' := by
  obtain ⟨θ, left, rfl⟩ := h.leads
  obtain ⟨η, left', rfl⟩ := h'.leads
  have same := eq_of_subst_eq (left.trans left'.symm)
  exact subst_congr fun v hv => same v (h.bound v hv)

theorem Fires.vars (h : Fires ok d t u) : ∀ v ∈ u.vars, v ∈ t.vars := by
  obtain ⟨θ, rfl, rfl⟩ := h.leads
  intro v hv
  obtain ⟨w, hw, hv⟩ := mem_vars_subst.1 hv
  exact mem_vars_subst.2 ⟨w, h.bound w hw, hv⟩

theorem Fires.over {sig : Signature} (h : Fires ok d t u) (ht : t.Over sig) (hr : d.2.Over sig) :
    u.Over sig := by
  obtain ⟨θ, rfl, rfl⟩ := h.leads
  exact hr.subst fun v hv => ht.of_mem_vars (h.bound v hv)

theorem Fires.rename (renamable : Renamable ok) (restores : Restores ρ ρ' t) (h : Fires ok d t u) :
    Fires ok d (t.subst ρ) (u.subst ρ) := by
  refine ⟨h.bound, renamable t u ρ ρ' restores h.admitted, ?_⟩
  obtain ⟨θ, rfl, rfl⟩ := h.leads
  exact ⟨_, subst_subst.symm, subst_subst.symm⟩

open Classical in
/-- What a directed equation makes of a term at the top. -/
noncomputable def use (ok : Term → Term → Prop) (d : Term × Term) (t : Term) : Term :=
  if h : ∃ u, Fires ok d t u then h.choose else t

theorem Fires.use_eq (h : Fires ok d t u) : use ok d t = u := by
  have fires : ∃ u, Fires ok d t u := ⟨u, h⟩
  rw [use, dif_pos fires]
  exact fires.choose_spec.unique h

theorem use_eq_self (h : ∀ u, ¬ Fires ok d t u) : use ok d t = t :=
  dif_neg fun ⟨u, fires⟩ => h u fires

theorem use_unmatched (h : ∀ θ : Var → Term, d.1.subst θ ≠ t) : use ok d t = t :=
  use_eq_self fun _ fires => by
    obtain ⟨θ, left, -⟩ := fires.leads
    exact h θ left

theorem use_over {sig : Signature} (ht : t.Over sig) (hr : d.2.Over sig) : (use ok d t).Over sig := by
  by_cases fires : ∃ u, Fires ok d t u
  · obtain ⟨u, fires⟩ := fires
    rw [fires.use_eq]
    exact fires.over ht hr
  · rwa [use_eq_self fun u h => fires ⟨u, h⟩]

theorem use_equivariant (renamable : Renamable ok) : Equivariant (use ok d) where
  vars := by
    intro t
    by_cases fires : ∃ u, Fires ok d t u
    · obtain ⟨u, fires⟩ := fires
      rw [fires.use_eq]
      exact fires.vars
    · rw [use_eq_self fun u h => fires ⟨u, h⟩]
      exact fun _ hv => hv
  rename := by
    intro t ρ ρ' restores
    by_cases fires : ∃ u, Fires ok d t u
    · obtain ⟨u, fires⟩ := fires
      rw [fires.use_eq, (fires.rename renamable restores).use_eq]
    · rw [use_eq_self fun u h => fires ⟨u, h⟩, use_eq_self]
      -- what fires on the renamed term fires on the term as it was
      intro u h
      have back := h.rename renamable restores.symm
      rw [restores] at back
      exact fires ⟨_, back⟩

/-- What directed equations make of a term at the top, one after the other. -/
noncomputable def useAll (ok : Term → Term → Prop) (ds : List (Term × Term)) (t : Term) : Term :=
  ds.foldl (fun t d => use ok d t) t

theorem useAll_over {sig : Signature} (ht : t.Over sig) (hr : ∀ d ∈ ds, d.2.Over sig) :
    (useAll ok ds t).Over sig := by
  induction ds generalizing t with
  | nil => exact ht
  | cons d ds ih =>
      exact ih (use_over ht (hr d List.mem_cons_self)) fun d hd => hr d (List.mem_cons_of_mem _ hd)

theorem useAll_equivariant (renamable : Renamable ok) : Equivariant (useAll ok ds) := by
  induction ds with
  | nil => exact ⟨fun _ _ hv => hv, fun _ => rfl⟩
  | cons d ds ih => exact ih.comp (use_equivariant renamable)

end

section
variable {top : Term → Term}

mutual
/-- One pass: the arguments first and then the top. -/
def pass (top : Term → Term) : Term → Term
  | .var v => top (.var v)
  | .app f args => top (.app f (passList top args))
  | .missing r => .missing r

def passList (top : Term → Term) : List Term → List Term
  | [] => []
  | t :: ts => pass top t :: passList top ts
end

theorem passList_eq_map (ts : List Term) : passList top ts = ts.map (pass top) := by
  induction ts with
  | nil => rfl
  | cons t ts ih => rw [passList, ih, List.map_cons]

theorem pass_app (f : Head) (args : List Term) :
    pass top (.app f args) = top (.app f (args.map (pass top))) := by
  rw [pass, passList_eq_map]

theorem pass_over {sig : Signature} (h : ∀ t : Term, t.Over sig → (top t).Over sig) (ht : t.Over sig) :
    (pass top t).Over sig := by
  induction t using induct with
  | var v => exact h _ ht
  | missing r => exact ht
  | app f args ih =>
      obtain ⟨known, inSig⟩ := over_app_iff.1 ht
      rw [pass_app]
      refine h _ (over_app_iff.2 ⟨by rwa [List.length_map], fun b hb => ?_⟩)
      obtain ⟨a, ha, rfl⟩ := List.mem_map.1 hb
      exact ih a ha (inSig a ha)

theorem pass_vars (h : Equivariant top) (t : Term) : ∀ v ∈ (pass top t).vars, v ∈ t.vars := by
  induction t using induct with
  | var v => exact h.vars (.var v)
  | missing r => exact fun _ hv => hv
  | app f args ih =>
      rw [pass_app]
      intro v hv
      obtain ⟨b, hb, hv⟩ := mem_vars_app.1 (h.vars _ v hv)
      obtain ⟨a, ha, rfl⟩ := List.mem_map.1 hb
      exact mem_vars_app.2 ⟨a, ha, ih a ha v hv⟩

theorem pass_equivariant (h : Equivariant top) : Equivariant (pass top) where
  vars := pass_vars h
  rename := by
    intro t ρ ρ' restores
    induction t using induct with
    | missing r => rfl
    | var v =>
        obtain ⟨w, hw⟩ := exists_var_of_subst_eq_var (restores_iff.1 restores v (mem_vars_var.2 rfl))
        have renamed := h.rename restores
        rw [subst_var, hw] at renamed
        rw [subst_var, hw]
        exact renamed
    | app f args ih =>
        have inner : ∀ a ∈ args, pass top (a.subst ρ) = (pass top a).subst ρ := fun a ha =>
          ih a ha (restores.of_vars fun v hv => mem_vars_app.2 ⟨a, ha, hv⟩)
        have passed : (Term.app f (args.map (pass top))).subst ρ =
            .app f ((args.map (subst ρ)).map (pass top)) := by
          rw [subst_app, List.map_map, List.map_map]
          exact congrArg _ (List.map_congr_left fun a ha => (inner a ha).symm)
        rw [subst_app, pass_app, pass_app, ← passed]
        refine h.rename (restores.of_vars fun v hv => ?_)
        obtain ⟨b, hb, hv⟩ := mem_vars_app.1 hv
        obtain ⟨a, ha, rfl⟩ := List.mem_map.1 hb
        exact mem_vars_app.2 ⟨a, ha, pass_vars h a v hv⟩

/-- Repeated passes lead to a term that a further pass does not change. -/
structure NormalForm (top : Term → Term) (t u : Term) : Prop where
  passes : Relation.ReflTransGen (fun a b => pass top a = b) t u
  fixed : pass top u = u

theorem NormalForm.refl (fixed : pass top u = u) : NormalForm top u u := ⟨.refl, fixed⟩

theorem eq_of_passes (fixed : pass top t = t)
    (passes : Relation.ReflTransGen (fun a b => pass top a = b) t u) : u = t := by
  induction passes with
  | refl => rfl
  | tail _ next ih => rw [← next, ih, fixed]

theorem NormalForm.unique {u' : Term} (h : NormalForm top t u) (h' : NormalForm top t u') : u = u' := by
  have functional : Relator.RightUnique fun a b => pass top a = b := fun _ _ _ hb hc => hb.symm.trans hc
  rcases h.passes.total_of_right_unique functional h'.passes with forth | back
  · exact (eq_of_passes h.fixed forth).symm
  · exact eq_of_passes h'.fixed back

theorem vars_of_passes (equivariant : Equivariant top)
    (passes : Relation.ReflTransGen (fun a b => pass top a = b) t u) : ∀ v ∈ u.vars, v ∈ t.vars := by
  induction passes with
  | refl => exact fun _ hv => hv
  | tail _ next ih =>
      rw [← next]
      exact fun v hv => ih v (pass_vars equivariant _ v hv)

theorem NormalForm.vars (equivariant : Equivariant top) (h : NormalForm top t u) :
    ∀ v ∈ u.vars, v ∈ t.vars :=
  vars_of_passes equivariant h.passes

theorem NormalForm.over {sig : Signature} (inSig : ∀ t : Term, t.Over sig → (top t).Over sig)
    (h : NormalForm top t u) (ht : t.Over sig) : u.Over sig := by
  obtain ⟨passes, -⟩ := h
  induction passes with
  | refl => exact ht
  | tail _ next ih => exact next ▸ pass_over inSig ih

/-- The normal form of a renamed term is the renamed normal form. -/
theorem NormalForm.rename (equivariant : Equivariant top) (restores : Restores ρ ρ' t)
    (h : NormalForm top t u) : NormalForm top (t.subst ρ) (u.subst ρ) := by
  have renamed : ∀ a : Term, (∀ v ∈ a.vars, v ∈ t.vars) → pass top (a.subst ρ) = (pass top a).subst ρ :=
    fun a inside => (pass_equivariant equivariant).rename (restores.of_vars inside)
  obtain ⟨passes, fixed⟩ := h
  constructor
  · clear fixed
    induction passes with
    | refl => exact .refl
    | tail before next ih =>
        refine ih.tail ?_
        rw [renamed _ (vars_of_passes equivariant before), next]
  · rw [renamed u (vars_of_passes equivariant passes), fixed]

end

end OrderedCompletion.Term
