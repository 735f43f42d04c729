import OrderedCompletion.Engine.Step
import OrderedCompletion.Proofs.Sizes

/-! Every action on a store only adds entries to it, with the node counts that the store gives. -/

namespace OrderedCompletion

/-- The action makes any store grow. -/
def StoreM.Grows {α : Type} (x : StoreM α) : Prop := ∀ s, Store.Grown s (x s).2

namespace StoreM

section
variable {α β : Type} {x : StoreM α} {f : α → StoreM β}

theorem Grows.still (h : ∀ s, (x s).2.entries = s.entries) : Grows x := fun s => .same (h s)

theorem Grows.pure (a : α) : Grows (Pure.pure a) := .still fun _ => rfl

theorem Grows.get : Grows MonadState.get := .still fun _ => rfl

theorem Grows.bind (hx : Grows x) (hf : ∀ a, Grows (f a)) : Grows (x >>= f) :=
  fun s => (hx s).trans (hf _ _)

theorem Grows.mapM {as : List α} (h : ∀ a, Grows (f a)) : Grows (as.mapM f) := by
  induction as with
  | nil => exact .pure []
  | cons a as ih =>
      rw [List.mapM_cons]
      exact (h a).bind fun b => ih.bind fun bs => .pure (b :: bs)

theorem Grows.foldlM {as : List α} {b : β} {g : β → α → StoreM β} (h : ∀ b a, Grows (g b a)) :
    Grows (as.foldlM g b) := by
  induction as generalizing b with
  | nil => exact .pure b
  | cons a as ih =>
      rw [List.foldlM_cons]
      exact (h b a).bind fun _ => ih

theorem Grows.anyM {as : List α} {p : α → StoreM Bool} (h : ∀ a, Grows (p a)) : Grows (as.anyM p) := by
  induction as with
  | nil => exact .pure false
  | cons a as ih =>
      rw [List.anyM]
      refine (h a).bind fun yes => ?_
      cases yes with
      | true => exact .pure true
      | false => exact ih

theorem Grows.allM {as : List α} {p : α → StoreM Bool} (h : ∀ a, Grows (p a)) : Grows (as.allM p) := by
  induction as with
  | nil => exact .pure true
  | cons a as ih =>
      rw [List.allM]
      refine (h a).bind fun yes => ?_
      cases yes with
      | true => exact ih
      | false => exact .pure false

theorem Grows.filterM {as : List α} {p : α → StoreM Bool} (h : ∀ a, Grows (p a)) :
    Grows (as.filterM p) := by
  have gen : ∀ acc : List α, Grows (as.filterAuxM p acc) := by
    induction as with
    | nil => exact fun acc => .pure acc
    | cons a as ih =>
        intro acc
        rw [List.filterAuxM]
        exact (h a).bind fun _ => ih _
  exact (gen []).bind fun _ => .pure _

/-- An action that may have no outcome is followed only if it has one. -/
theorem Grows.bindOption {x : OptionT StoreM α} {f : α → OptionT StoreM β} (hx : Grows x.run)
    (hf : ∀ a, Grows (f a).run) : Grows (x >>= f).run := by
  rw [OptionT.run_bind]
  refine Grows.bind hx fun outcome => ?_
  cases outcome with
  | none => exact .pure none
  | some a => exact hf a

theorem Grows.liftOption (hx : Grows x) : Grows (liftM x : OptionT StoreM α).run :=
  .bind hx fun _ => .pure _

theorem Grows.check (p : Prop) [Decidable p] : Grows (guard p : OptionT StoreM Unit).run := by
  unfold guard
  split
  · exact .pure (some ())
  · exact .pure none

theorem Grows.foldlOption {as : List α} {b : β} {g : β → α → OptionT StoreM β}
    (h : ∀ b a, Grows (g b a).run) : Grows (as.foldlM g b).run := by
  induction as generalizing b with
  | nil => exact .pure (some b)
  | cons a as ih =>
      rw [List.foldlM_cons]
      exact Grows.bindOption (h b a) fun _ => ih

/-- An action that may fail is followed only if it does not. -/
theorem Grows.bindExcept {ε : Type} {x : ExceptT ε StoreM α} {f : α → ExceptT ε StoreM β}
    (hx : Grows x.run) (hf : ∀ a, Grows (f a).run) : Grows (x >>= f).run := by
  rw [ExceptT.run_bind]
  refine Grows.bind hx fun outcome => ?_
  cases outcome with
  | error e => exact .pure (Except.error e)
  | ok a => exact hf a

end
end StoreM

namespace Store

open StoreM

theorem intern_grows (node : Node) : Grows (intern node) := by
  intro s
  rw [intern]
  split
  · exact .refl s
  · exact .push node (.refl s) rfl

mutual
theorem ofTerm_grows (t : Term) : Grows (ofTerm t) := by
  cases t with
  | var v => exact intern_grows _
  | app f args => exact .bind (ofTerms_grows args) fun _ => intern_grows _
  | missing r => exact .pure r

theorem ofTerms_grows (ts : List Term) : Grows (ofTerms ts) := by
  cases ts with
  | nil => exact .pure []
  | cons t ts => exact .bind (ofTerm_grows t) fun _ => .bind (ofTerms_grows ts) fun _ => .pure _
end

theorem listOfTerms_grows (pairs : List (Term × Term)) : Grows (Equation.listOfTerms pairs) :=
  .mapM fun _ => .bind (ofTerm_grows _) fun _ => .bind (ofTerm_grows _) fun _ => .pure _

theorem varsWithin_grows (n : Nat) (r : Ref) : Grows (varsWithin n r) := by
  induction n generalizing r with
  | zero => exact .pure []
  | succ n ih =>
      rw [varsWithin]
      refine .bind .get fun s => ?_
      split
      · exact .pure _
      · refine .bind .get fun s => ?_
        extract_lets note
        have noted : ∀ vs, Grows (note vs) := fun vs => .bind (.still fun _ => rfl) fun _ => .pure vs
        split
        · exact .bind (.pure _) noted
        · exact .bind (.mapM ih) fun _ => .bind (.pure _) noted
        · exact .bind (.pure _) noted

theorem vars_grows (r : Ref) : Grows (vars r) := .bind .get fun _ => varsWithin_grows _ r

theorem isGround_grows (r : Ref) : Grows (isGround r) := .bind (vars_grows r) fun _ => .pure _

theorem occurs_grows (v : Var) (r : Ref) : Grows (occurs v r) := .bind (vars_grows r) fun _ => .pure _

theorem applyWithin_grows (σ : Subst) (n : Nat) (r : Ref) : Grows (applyWithin σ n r) := by
  induction n generalizing r with
  | zero => exact .pure r
  | succ n ih =>
      rw [applyWithin]
      refine .bind (vars_grows r) fun vs => ?_
      split
      · exact .pure r
      · refine .bind .get fun s => ?_
        split
        · exact .pure _
        · exact .bind (.mapM ih) fun _ => intern_grows _
        · exact .pure r

theorem apply_grows (σ : Subst) (r : Ref) : Grows (apply σ r) := by
  rw [apply]
  split
  · exact .pure r
  · exact .bind .get fun _ => applyWithin_grows σ _ r

theorem applyUpTo_grows (σ : Subst) (n : Nat) (r : Ref) : Grows (applyUpTo σ n r) := by
  induction n generalizing r with
  | zero => exact .pure r
  | succ n ih =>
      rw [applyUpTo]
      refine .bind (apply_grows σ r) fun out => ?_
      split
      · exact .pure r
      · exact ih out

theorem resolve_grows (σ : Subst) : Grows (resolve σ) :=
  .bind (.mapM fun _ => .bind (applyUpTo_grows σ _ _) fun _ => .pure _) fun _ => .bind .get fun _ => .pure _

theorem matchWithin_grows (n : Nat) (σ : Subst) (pair : Ref × Ref) : Grows (matchWithin n σ pair).run := by
  induction n generalizing σ pair with
  | zero => exact .pure none
  | succ n ih =>
      obtain ⟨p, t⟩ := pair
      rw [matchWithin]
      refine .bindOption (.liftOption (isGround_grows p)) fun ground => ?_
      split
      · exact .bindOption (.check _) fun _ => .pure _
      · refine .bindOption (.still fun _ => rfl) fun s => ?_
        split
        · split
          · exact .bindOption (.check _) fun _ => .pure _
          · exact .pure _
        · exact .bindOption (.check _) fun _ => .foldlOption ih
        · exact .pure none
        · exact .pure none

theorem matchPairs?_grows (pairs : List (Ref × Ref)) : Grows (matchPairs? pairs).run :=
  .bindOption (.still fun _ => rfl) fun _ => .foldlOption (matchWithin_grows _)

theorem reachesWithin_grows (σ : Subst) (v : Var) (n : Nat) (r : Ref) : Grows (reachesWithin σ v n r) := by
  induction n generalizing r with
  | zero => exact .pure false
  | succ n ih =>
      rw [reachesWithin]
      refine .bind (isGround_grows r) fun ground => ?_
      split
      · exact .pure false
      · refine .bind .get fun s => ?_
        split
        · exact .pure _
        · exact .anyM ih
        · exact .pure false

theorem unifyWithin_grows (n : Nat) (σ : Subst) (pair : Ref × Ref) : Grows (unifyWithin n σ pair).run := by
  induction n generalizing σ pair with
  | zero => exact .pure none
  | succ n ih =>
      obtain ⟨a, b⟩ := pair
      rw [unifyWithin]
      refine .bindOption (.still fun _ => rfl) fun s => ?_
      extract_lets a' b'
      have bindUnless : ∀ (v : Var) (r : Ref) (σ' : Subst), Grows (do
          if ← reachesWithin σ v (n + 1) r then failure
          return σ' : OptionT StoreM Subst).run := by
        intro v r σ'
        refine .bindOption (.liftOption (reachesWithin_grows σ v (n + 1) r)) fun reached => ?_
        split
        · exact .pure none
        · exact .pure _
      split
      · exact .pure _
      · split
        · exact .pure _
        · exact bindUnless _ _ _
        · exact bindUnless _ _ _
        · exact .bindOption (.check _) fun _ => .foldlOption ih
        · exact .pure none
        · exact .pure none

theorem unify?_grows (r q : Ref) : Grows (unify? r q).run :=
  .bindOption (.still fun _ => rfl) fun _ => .bindOption (.foldlOption (unifyWithin_grows _))
    fun σ => .liftOption (resolve_grows σ)

theorem overlapsAt_grows (a : Ref) (places : List (Position × Ref)) : Grows (overlapsAt a places) := by
  induction places with
  | nil => exact .pure []
  | cons place places ih =>
      obtain ⟨position, r⟩ := place
      rw [overlapsAt]
      refine .bind (unify?_grows r a) fun outcome => ?_
      split
      · exact .bind ih fun _ => .pure _
      · exact ih

theorem overlaps_grows (g a : Ref) : Grows (overlaps g a) := .bind .get fun _ => overlapsAt_grows a _

theorem replaceAt_grows (r : Ref) (p : Position) (u : Ref) : Grows (replaceAt r p u).run := by
  induction p generalizing r with
  | nil =>
      rw [replaceAt]
      exact .pure (Except.ok u)
  | cons i q ih =>
      rw [replaceAt]
      refine .bindExcept (.still fun _ => rfl) fun s => ?_
      split
      · split
        · refine .bindExcept (x := (replaceAt _ q u).adapt _) (.bind (ih _) fun _ => .pure _) fun out => ?_
          exact .bind (intern_grows _) fun _ => .pure _
        · exact .pure (Except.error _)
      · exact .pure (Except.error _)
      · exact .pure (Except.error _)

end Store

namespace Equation

open StoreM

theorem apply_grows (σ : Subst) (e : Equation) : Grows (e.apply σ) :=
  .bind (Store.apply_grows σ e.lhs) fun _ => .bind (Store.apply_grows σ e.rhs) fun _ => .pure _

theorem vars_grows (e : Equation) : Grows e.vars :=
  .bind (Store.vars_grows e.lhs) fun _ => .bind (Store.vars_grows e.rhs) fun _ => .pure _

theorem subsumes_grows (e d : Equation) : Grows (e.subsumes d) :=
  .bind (Store.matchPairs?_grows _) fun _ => .pure _

theorem subsumesEither_grows (e d : Equation) : Grows (e.subsumesEither d) := by
  refine .bind (subsumes_grows e d) fun yes => ?_
  split
  · exact .pure true
  · exact subsumes_grows e d.reversed

end Equation

namespace Kbo

open StoreM

theorem greaterWithin_grows (cmp : HeadComparison) (n : Nat) (r q : Ref) :
    Grows (greaterWithin cmp n r q) := by
  induction n generalizing r q with
  | zero => exact .pure false
  | succ n ih =>
      rw [greaterWithin]
      split
      · exact .pure false
      · refine .bind .get fun s => ?_
        split
        · split
          · exact .pure true
          · exact .pure false
          · split
            · exact .pure true
            · split
              · exact ih _ _
              · exact .pure false
            · exact .pure false
            · exact .pure false
        · exact Store.occurs_grows _ r
        · exact .pure false
        · exact .pure false
        · exact .pure false

theorem greater_grows (cmp : HeadComparison) (r q : Ref) : Grows (greater cmp r q) := by
  rw [greater]
  split
  · exact .pure false
  · refine .bind .get fun s => ?_
    split
    · exact greaterWithin_grows cmp _ r q
    · exact .pure false

end Kbo

namespace Lpo

open StoreM

theorem greaterWithin_grows (cmp : HeadComparison) (n : Nat) (r q : Ref) :
    Grows (greaterWithin cmp n r q) := by
  induction n generalizing r q with
  | zero => exact .pure false
  | succ n ih =>
      rw [greaterWithin]
      split
      · exact .pure false
      · refine .bind .get fun s => ?_
        split
        · refine .bind (.anyM fun a => ?_) fun found => ?_
          · split
            · exact .pure true
            · exact ih a q
          · split
            · exact .pure true
            · split
              · exact .allM (ih r)
              · split
                · refine .bind (ih _ _) fun yes => ?_
                  split
                  · exact .allM (ih r)
                  · exact .pure false
                · exact .pure false
              · exact .pure false
              · exact .pure false
        · exact Store.occurs_grows _ r
        · exact .pure false
        · exact .pure false
        · exact .pure false

theorem greater_grows (cmp : HeadComparison) (r q : Ref) : Grows (greater cmp r q) :=
  .bind .get fun _ => greaterWithin_grows cmp _ r q

end Lpo

namespace Engine

open StoreM

theorem ofAxioms_grows (config : Config) (axioms : List Equation) (source : VarSource) :
    Grows (ofAxioms config axioms source) :=
  .bind (.foldlM fun _ e => .bind e.vars_grows fun _ => .pure _) fun _ => .pure _

theorem filterSubsumed_grows (worklist candidates : List Equation) :
    Grows (filterSubsumed worklist candidates) :=
  .filterM fun c => .bind (.anyM fun e => e.subsumes_grows c) fun _ => .pure _

theorem removeSubsumed_grows (kept eqs : List Equation) : Grows (removeSubsumed kept eqs) := by
  induction eqs generalizing kept with
  | nil => exact .pure kept
  | cons eq eqs ih =>
      rw [removeSubsumed]
      refine .bind (.anyM fun e => e.subsumesEither_grows eq) fun yes => ?_
      split
      · exact ih kept
      · exact ih (kept ++ [eq])

end Engine
end OrderedCompletion
