import OrderedCompletion.Proofs.Judging

/-! What the orders that come with the library answer, whatever the comparison of heads is like: a relation
that does not look at the names of variables. -/

namespace OrderedCompletion

variable {cmp : HeadComparison} {s t : Term} {ρ ρ' : Var → Term} {f g : Head} {ss ts : List Term} {v : Var}

/-- The node counts that a store keeps. -/
abbrev WordSized (t : Term) (n : UInt32) : Prop := n.toNat = t.wordSize

namespace Kbo

theorem Says.rename (hs : Term.Restores ρ ρ' s) (ht : Term.Restores ρ ρ' t) (h : Says cmp s t) :
    Says cmp (s.subst ρ) (t.subst ρ) := by
  have size : ∀ {u : Term}, Term.Restores ρ ρ' u → (u.subst ρ).wordSize = u.wordSize := fun hu => by
    rw [Term.wordSize, Term.wordSize, size_subst_of_restores hu]
  induction h with
  | @larger f g ss ts less =>
      rw [← size hs, ← size ht] at less
      rw [Term.subst_app, Term.subst_app] at less ⊢
      exact .larger less
  | @head f g ss ts differ same greater =>
      rw [← size hs, ← size ht] at same
      have differ' : (Term.app f ss).subst ρ ≠ (Term.app g ts).subst ρ := fun alike =>
        differ ((Eq.symm hs).trans ((congrArg (Term.subst ρ') alike).trans ht))
      rw [Term.subst_app, Term.subst_app] at same differ' ⊢
      exact .head differ' same (by simpa using greater)
  | @lex f g pre post post' a b same equal _ ih =>
      have inner := ih (hs.of_vars (Term.keeps_of_mem (by simp))) (ht.of_vars (Term.keeps_of_mem (by simp)))
      rw [← size hs, ← size ht] at same
      simp only [Term.subst_app, List.map_append, List.map_cons] at same ⊢
      exact .lex same (by simpa using equal) inner
  | @var f ss v hv =>
      obtain ⟨w, hw, inside⟩ := Term.exists_var_of_mem ht hv
      rw [Term.subst_var, hw]
      rw [Term.subst_app] at inside ⊢
      exact .var inside

/-- The variable condition, and what the test says without it. -/
def Tells (cmp : HeadComparison) (s t : Term) : Prop := s.Covers t ∧ Says cmp s t

theorem tells_blind : Term.Blind (Tells cmp) where
  vars := fun h _ hv => h.1.mem_vars hv
  renamable := fun _ _ _ _ restores h =>
    ⟨h.1.subst, h.2.rename restores (restores.of_vars fun _ => h.1.mem_vars)⟩

end Kbo

namespace Lpo

theorem Says.rename (restores : Term.Restores ρ ρ' s) (h : Says cmp s t) :
    Says cmp (s.subst ρ) (t.subst ρ) := by
  -- two terms that differ go on to do so
  have apart : ∀ {s t : Term}, Says cmp s t → Term.Restores ρ ρ' s → s.subst ρ ≠ t.subst ρ := by
    intro s t h hs alike
    have ht := hs.of_vars fun _ => h.mem_vars
    exact h.ne ((Eq.symm hs).trans ((congrArg (Term.subst ρ') alike).trans ht))
  induction h with
  | arg ha =>
      rw [Term.subst_app]
      exact .arg (List.mem_map_of_mem ha)
  | inside differ ha h ih =>
      have differ' := apart (.inside differ ha h) restores
      have inner := ih (restores.of_vars (Term.keeps_of_mem ha))
      rw [Term.subst_app] at differ' ⊢
      exact .inside differ' (List.mem_map_of_mem ha) inner
  | @head f g ss ts differ greater below ih =>
      have differ' := apart (.head differ greater below) restores
      rw [Term.subst_app, Term.subst_app] at differ' ⊢
      refine .head differ' (by simpa using greater) fun t ht => ?_
      obtain ⟨u, hu, rfl⟩ := List.mem_map.1 ht
      rw [← Term.subst_app]
      exact ih u hu restores
  | @lex f g pre post post' a b differ equal down below ih ih' =>
      have differ' := apart (.lex differ equal down below) restores
      have inner := ih (restores.of_vars (Term.keeps_of_mem (by simp)))
      have all : ∀ t ∈ (pre ++ b :: post').map (Term.subst ρ),
          Says cmp (Term.subst ρ (.app f (pre ++ a :: post))) t := by
        intro t ht
        obtain ⟨u, hu, rfl⟩ := List.mem_map.1 ht
        exact ih' u hu restores
      simp only [Term.subst_app, List.map_append, List.map_cons] at differ' all ⊢
      exact .lex differ' (by simpa using equal) inner all

theorem says_blind : Term.Blind (Says cmp) where
  vars := fun h _ => h.mem_vars
  renamable := fun _ _ _ _ restores h => h.rename restores

end Lpo

namespace Order

/-- What an order of a kind answers. -/
def Tells (cmp : HeadComparison) : OrderKind → Term → Term → Prop
  | .kbo => Kbo.Tells cmp
  | .lpo => Lpo.Says cmp

/-- Nothing is asked of the comparison of heads. -/
theorem ofKind_judges (cmp : HeadComparison) (kind : OrderKind) :
    (ofKind cmp kind).Judges WordSized .full (Tells cmp kind) := by
  cases kind with
  | kbo =>
      refine ⟨Kbo.greater_grows cmp, Kbo.tells_blind, ?_⟩
      intro s r q a b wf counted ha hb inSig _
      refine (Kbo.says_unfolds.greater wf ha.1 hb.1).mono fun yes _ _ _ h => ?_
      have answer := h.2 counted (ha.2 ▸ inSig)
      rwa [ha.2, hb.2] at answer
  | lpo =>
      refine ⟨Lpo.greater_grows cmp, Lpo.says_blind, ?_⟩
      intro s r q a b wf _ ha hb inSig inSig'
      refine (Lpo.says_unfolds.greater wf ha.1 hb.1 (ha.2 ▸ inSig) (hb.2 ▸ inSig')).mono fun yes _ _ _ h => ?_
      have answer := h.2
      rwa [ha.2, hb.2] at answer

end Order
end OrderedCompletion
