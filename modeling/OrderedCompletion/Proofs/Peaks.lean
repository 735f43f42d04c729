import Mathlib.Logic.Function.Basic
import Mathlib.Logic.Relation
import OrderedCompletion.Proofs.Equational
import OrderedCompletion.Proofs.Position

/-! Two uses of a relation from one term: beside each other, inside of what stands for a variable, or in a
place that both take part in. -/

namespace OrderedCompletion.InContext

open Relation

variable {root : Term → Term → Prop} {a b l s s' t t' w : Term} {ρ ρ' : Var → Term}
variable {f : Head} {pre mid post : List Term} {sig : Signature}

theorem chain_arg (h : ReflTransGen (InContext root) s t) :
    ReflTransGen (InContext root) (.app f (pre ++ s :: post)) (.app f (pre ++ t :: post)) :=
  ReflTransGen.lift (fun z => Term.app f (pre ++ z :: post)) (fun _ _ h => .arg f pre post h) _ _ h

theorem chain_args {as bs : List Term} (h : List.Forall₂ (ReflTransGen (InContext root)) as bs) :
    ReflTransGen (InContext root) (.app f as) (.app f bs) := by
  suffices gen : ∀ pre, ReflTransGen (InContext root) (.app f (pre ++ as)) (.app f (pre ++ bs)) from gen []
  induction h with
  | nil => exact fun pre => .refl
  | @cons a b as bs hd _ ih =>
      intro pre
      have rest := ih (pre ++ [b])
      simp only [List.append_assoc, List.singleton_append] at rest
      exact (chain_arg hd).trans rest

/-- A term is rewritten by rewriting what stands for its variables. -/
theorem chain_subst (h : ∀ v, ReflTransGen (InContext root) (ρ v) (ρ' v)) (t : Term) :
    ReflTransGen (InContext root) (t.subst ρ) (t.subst ρ') := by
  induction t using Term.induct with
  | var v => exact h v
  | app f args ih =>
      simp only [Term.subst_app]
      apply chain_args
      rw [List.forall₂_map_left_iff, List.forall₂_map_right_iff, List.forall₂_same]
      exact ih
  | missing r => exact .refl

theorem chain_update {x : Var} (h : InContext root (ρ x) t) (u : Term) :
    ReflTransGen (InContext root) (u.subst ρ) (u.subst (Function.update ρ x t)) := by
  apply chain_subst
  intro v
  by_cases here : v = x
  · rw [here, Function.update_self]
    exact .single h
  · rw [Function.update_of_ne here]

/-- A use in an instance takes part in the term itself, or happens in what stands for a variable. -/
theorem of_subst (hl : l.Over sig) (h : InContext root (l.subst ρ) b) :
    (∃ p u t, l.subtermAt p = some u ∧ u.IsApp ∧ root (u.subst ρ) t ∧
      b = Term.replaceAt t (l.subst ρ) p) ∨
    ∃ x t, InContext root (ρ x) t ∧
      ReflTransGen (InContext root) b (l.subst (Function.update ρ x t)) := by
  induction l using Term.induct generalizing b with
  | var x =>
      right
      refine ⟨x, b, h, ?_⟩
      rw [Term.subst_var, Function.update_self]
  | missing r => exact absurd hl Term.not_over_missing
  | app f args ih =>
      generalize whole : (Term.app f args).subst ρ = w at h
      cases h with
      | root top =>
          left
          exact ⟨[], .app f args, b, Term.subtermAt_nil, trivial, whole ▸ top, Term.replaceAt_nil.symm⟩
      | @arg s t g pre post inner =>
          rw [Term.subst_app] at whole
          obtain ⟨rfl, split⟩ := Term.app.inj whole
          obtain ⟨before, others, rfl, rfl, rest⟩ := List.map_eq_append_iff.1 split
          obtain ⟨c, after, rfl, rfl, rfl⟩ := List.map_eq_cons_iff.1 rest
          have place : (before ++ c :: after)[before.length]? = some c := by simp
          rcases ih c (by simp) ((Term.over_app_iff.1 hl).2 c (by simp)) inner with found | found
          · obtain ⟨p, u, t', at_, app, top, rfl⟩ := found
            left
            refine ⟨before.length :: p, u, t', ?_, app, top, ?_⟩
            · rw [Term.subtermAt_cons place, at_]
            · have moved : (before.map (Term.subst ρ) ++ c.subst ρ :: after.map (Term.subst ρ))[before.length]? =
                  some (c.subst ρ) := by simp
              rw [Term.replaceAt_cons moved]
              simp
          · obtain ⟨x, t', step, chain⟩ := found
            right
            refine ⟨x, t', step, ?_⟩
            rw [Term.subst_app, List.map_append, List.map_cons]
            have others : ∀ ts : List Term, List.Forall₂ (ReflTransGen (InContext root))
                (ts.map (Term.subst ρ)) (ts.map (Term.subst (Function.update ρ x t'))) := by
              intro ts
              rw [List.forall₂_map_left_iff, List.forall₂_map_right_iff, List.forall₂_same]
              exact fun d _ => chain_update step d
            exact chain_args (List.rel_append (others before) (.cons chain (others after)))

/-- Uses in different arguments do not hinder each other. -/
theorem disjoint (h : InContext root s t) (h' : InContext root s' t') :
    ∃ u, InContext root (.app f (pre ++ t :: (mid ++ s' :: post))) u ∧
      InContext root (.app f (pre ++ s :: (mid ++ t' :: post))) u := by
  refine ⟨.app f (pre ++ t :: (mid ++ t' :: post)), ?_, .arg f pre _ h⟩
  simpa using InContext.arg f (pre ++ t :: mid) post h'

/-- What two uses from a term come to, if it is known of a use at the top and of uses in different
arguments. The induction is on the context of the first use. -/
theorem peak {I : Term → Prop} {M : Term → Term → Term → Prop}
    (part : ∀ {f pre s post}, I (.app f (pre ++ s :: post)) → I s)
    (top : ∀ {w a b}, I w → root w a → InContext root w b → M w a b)
    (symm : ∀ {w a b}, M w a b → M w b a)
    (arg : ∀ {f pre s post a b}, I (.app f (pre ++ s :: post)) → M s a b →
      M (.app f (pre ++ s :: post)) (.app f (pre ++ a :: post)) (.app f (pre ++ b :: post)))
    (beside : ∀ {f pre s mid s' post a b}, I (.app f (pre ++ s :: (mid ++ s' :: post))) →
      InContext root s a → InContext root s' b → M (.app f (pre ++ s :: (mid ++ s' :: post)))
        (.app f (pre ++ a :: (mid ++ s' :: post))) (.app f (pre ++ s :: (mid ++ b :: post))))
    (hw : I w) (h : InContext root w a) (h' : InContext root w b) : M w a b := by
  induction h generalizing b with
  | root h => exact top hw h h'
  | @arg s t f pre post step ih =>
      generalize whole : Term.app f (pre ++ s :: post) = w' at h'
      cases h' with
      | root use =>
          subst whole
          exact symm (top hw use (.arg f pre post step))
      | @arg s' t' g pre' post' step' =>
          obtain ⟨rfl, split⟩ := Term.app.inj whole
          rcases List.append_eq_append_iff.1 split with ⟨mid, rfl, rest⟩ | ⟨mid, rfl, rest⟩
          · cases mid with
            | nil =>
                obtain ⟨rfl, rfl⟩ := List.cons.inj rest
                rw [List.append_nil]
                exact arg hw (ih (part hw) step')
            | cons c mid =>
                obtain ⟨rfl, rfl⟩ := List.cons.inj rest
                simpa using beside hw step step'
          · cases mid with
            | nil =>
                obtain ⟨rfl, rfl⟩ := List.cons.inj rest
                rw [List.append_nil] at hw ⊢
                exact arg hw (ih (part hw) step')
            | cons c mid =>
                obtain ⟨rfl, rfl⟩ := List.cons.inj rest
                have hw' : I (.app f (pre' ++ s' :: (mid ++ s :: post))) := by simpa using hw
                simpa using symm (beside hw' step' step)

end OrderedCompletion.InContext
