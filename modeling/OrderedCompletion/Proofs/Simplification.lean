import OrderedCompletion.Proofs.Lpo
import OrderedCompletion.Proofs.Precedence
import OrderedCompletion.Proofs.Runs

/-! The lexicographic path order is a simplification order, well-founded, and total on ground terms. -/

namespace OrderedCompletion

/-- The laws of a simplification order on the terms over a signature. -/
structure SimplificationOrder (sig : Signature) (gt : Term → Term → Prop) : Prop where
  irrefl : ∀ {s : Term}, s.Over sig → ¬ gt s s
  trans : ∀ {s t u : Term}, s.Over sig → t.Over sig → u.Over sig → gt s t → gt t u → gt s u
  subterm : ∀ {s t : Term} {p : Position}, s.Over sig → p ≠ [] → s.subtermAt p = some t → gt s t
  arg : ∀ {f : Head} {pre post : List Term} {s t : Term},
    (Term.app f (pre ++ s :: post)).Over sig → (Term.app f (pre ++ t :: post)).Over sig → gt s t →
    gt (.app f (pre ++ s :: post)) (.app f (pre ++ t :: post))
  subst : ∀ {s t : Term} {θ : Var → Term}, s.Over sig → t.Over sig → (∀ v ∈ s.vars, (θ v).Over sig) →
    gt s t → gt (s.subst θ) (t.subst θ)
  vars : ∀ {s t : Term} {v : Var}, s.Over sig → t.Over sig → gt s t → v ∈ t.vars → v ∈ s.vars

variable {sig : Signature} {gt gt' : Term → Term → Prop} {s t u : Term}

/-- The laws are about terms over the signature only. -/
theorem SimplificationOrder.congr (h : SimplificationOrder sig gt)
    (same : ∀ {s t : Term}, s.Over sig → t.Over sig → (gt' s t ↔ gt s t)) :
    SimplificationOrder sig gt' where
  irrefl := fun hs => (same hs hs).not.2 (h.irrefl hs)
  trans := fun hs ht hu first second =>
    (same hs hu).2 (h.trans hs ht hu ((same hs ht).1 first) ((same ht hu).1 second))
  subterm := fun hs below at_ => (same hs (hs.subtermAt at_)).2 (h.subterm hs below at_)
  arg := fun hs ht greater => by
    have hs' := (Term.over_app_iff.1 hs).2 _ (List.mem_append_right _ List.mem_cons_self)
    have ht' := (Term.over_app_iff.1 ht).2 _ (List.mem_append_right _ List.mem_cons_self)
    exact (same hs ht).2 (h.arg hs ht ((same hs' ht').1 greater))
  subst := fun hs ht hθ greater => by
    have greater' := (same hs ht).1 greater
    have hsθ := hs.subst hθ
    have htθ := ht.subst fun v hv => hθ v (h.vars hs ht greater' hv)
    exact (same hsθ htθ).2 (h.subst hs ht hθ greater')
  vars := fun hs ht greater hv => h.vars hs ht ((same hs ht).1 greater) hv

namespace Order

/-- What the order answers about two terms that are put into an empty store. -/
def test (o : Order) (s t : Term) : Bool :=
  ((do
    let eq ← Equation.ofTerms s t
    o.greater eq.lhs eq.rhs : StoreM Bool) .empty).1

variable {o : Order}

theorem Decides.test_iff (h : o.Decides sig gt) (hs : s.Over sig) (ht : t.Over sig) :
    o.test s t = true ↔ gt s t := by
  have spec : Store.empty.Ensures (do
      let eq ← Equation.ofTerms s t
      o.greater eq.lhs eq.rhs) fun yes _ => yes = true ↔ gt s t := by
    refine (Equation.ofTerms_spec Store.empty_wellFormed hs.full ht.full).bind ?_
    intro eq store wf _ means
    exact h wf means.1 means.2 hs ht
  exact spec.2.2

/-- In any store the answer is the same. -/
theorem Decides.test (h : o.Decides sig gt) : o.Decides sig fun s t => o.test s t = true := by
  intro store r q a b wf ha hb inSig inSig'
  refine (h wf ha hb inSig inSig').mono fun yes _ _ _ answer => ?_
  exact answer.trans (h.test_iff inSig inSig').symm

/-- The lexicographic path order over the precedence that ranks some symbols of a table. -/
def lpo (symbols : SymbolTable) (ranked : List Symbol) : Order :=
  .ofKind (Precedence.compare symbols (.ranking ranked)) .lpo

/-- The Knuth-Bendix order over the precedence that ranks some symbols of a table. -/
def kbo (symbols : SymbolTable) (ranked : List Symbol) : Order :=
  .ofKind (Precedence.compare symbols (.ranking ranked)) .kbo

end Order

namespace Lpo

variable {cmp : HeadComparison}

theorem decides (lawful : cmp.Lawful sig) : (Order.ofKind cmp .lpo).Decides sig (Gt cmp) := by
  rintro store r q a b wf ⟨hr, rfl⟩ ⟨hq, rfl⟩ inSig inSig'
  exact (greater_spec lawful wf hr hq inSig inSig').mono fun _ _ _ _ h => h.2

/-- A term is greater than every term inside it. -/
theorem Gt.of_subtermAt {p : Position} (below : p ≠ []) (at_ : s.subtermAt p = some t) : Gt cmp s t := by
  induction p generalizing s with
  | nil => exact absurd rfl below
  | cons i p ih =>
      obtain ⟨f, args, a, rfl, ha, hs⟩ := Term.subtermAt_cons_eq_some at_
      have mem := List.mem_of_getElem? ha
      by_cases here : p = []
      · rw [here, Term.subtermAt_nil, Option.some.injEq] at hs
        exact hs ▸ .arg mem
      · exact .inside mem (ih here hs)

theorem simplificationOrder (lawful : cmp.Lawful sig) : SimplificationOrder sig (Gt cmp) where
  irrefl := fun hs => Gt.irrefl lawful hs
  trans := fun hs ht hu first second => first.trans lawful hs ht hu second
  subterm := fun _ below at_ => .of_subtermAt below at_
  arg := fun hs _ greater => greater.context lawful (Term.over_app_iff.1 hs).1
  subst := fun _ _ _ greater => greater.subst
  vars := fun _ _ greater hv => greater.mem_vars hv

end Lpo

namespace Order

variable (symbols : SymbolTable) (ranked : List Symbol)

theorem lpo_decides : (lpo symbols ranked).Decides (.interned symbols)
    (Lpo.Gt (Precedence.compare symbols (.ranking ranked))) :=
  Lpo.decides (Precedence.lawful symbols ranked)

/-- The answers of the lexicographic path order depend on the two terms only and are those of a
simplification order. -/
theorem lpo_simplificationOrder :
    (lpo symbols ranked).Decides (.interned symbols) (fun s t => (lpo symbols ranked).test s t = true) ∧
    SimplificationOrder (.interned symbols) fun s t => (lpo symbols ranked).test s t = true := by
  have decides : (lpo symbols ranked).Decides _ _ := lpo_decides symbols ranked
  have laws := Lpo.simplificationOrder (Precedence.lawful symbols ranked)
  exact ⟨decides.test, laws.congr fun hs ht => decides.test_iff hs ht⟩

/-- There is no infinite descent in the lexicographic path order, and of two different ground terms one is
greater. -/
theorem lpo_wellFounded_total :
    (∀ chain : Nat → Term, (∀ n, (chain n).Over (.interned symbols)) →
      ∃ n, (lpo symbols ranked).test (chain n) (chain (n + 1)) = false) ∧
    (∀ s t : Term, s.Over (.named symbols) → t.Over (.named symbols) → s.IsGround → t.IsGround → s ≠ t →
      (lpo symbols ranked).test s t = true ∨ (lpo symbols ranked).test t s = true) ∧
    (lpo symbols ranked).Decides (.interned symbols) (fun s t => (lpo symbols ranked).test s t = true) := by
  have decides : (lpo symbols ranked).Decides _ _ := lpo_decides symbols ranked
  have lawful := Precedence.lawful symbols ranked
  refine ⟨?_, ?_, decides.test⟩
  · intro chain inSig
    by_contra endless
    have descent : ∀ n, Lpo.Less (Precedence.compare symbols (.ranking ranked)) (.interned symbols)
        (chain (n + 1)) (chain n) := by
      intro n
      have yes : (lpo symbols ranked).test (chain n) (chain (n + 1)) = true := by
        rw [← Bool.not_eq_false]
        exact fun no => endless ⟨n, no⟩
      exact ⟨inSig (n + 1), inSig n, (decides.test_iff (inSig n) (inSig (n + 1))).1 yes⟩
    exact (wellFounded_iff_isEmpty_descending_chain.1 (Lpo.wf_less lawful)).false ⟨chain, descent⟩
  · intro s t hs ht groundS groundT differ
    have le : ∀ f n, Signature.named symbols f n → Signature.interned symbols f n :=
      fun _ _ => Signature.interned_of_named
    rw [decides.test_iff (hs.mono le) (ht.mono le), decides.test_iff (ht.mono le) (hs.mono le)]
    exact Lpo.total (lawful.mono le) (Precedence.total symbols ranked) hs ht groundS groundT differ

end Order
end OrderedCompletion
