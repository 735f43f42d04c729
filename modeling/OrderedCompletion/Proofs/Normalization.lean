import OrderedCompletion.Proofs.Reduction
import OrderedCompletion.Proofs.Renaming
import OrderedCompletion.Proofs.Runs

/-! Which normal forms are found: those of a function on terms, whatever the store and the supply are. -/

namespace OrderedCompletion

variable {s s' : Store} {sig : Signature} {gt : Term → Term → Prop} {a l r : Term} {e : Equation}
variable {t : Ref} {es : List Equation} {R E : List (Term × Term)}

namespace Store

/-- The sides of equations. -/
def sides (s : Store) (es : List Equation) : List (Term × Term) :=
  es.map fun e => (s.term e.lhs, s.term e.rhs)

theorem mem_sides {d : Term × Term} : d ∈ s.sides es ↔ d ∈ s.theory es := by
  simp [sides, theory, eq_comm]

theorem HasAll.sides_over {d : Term × Term} (h : s.HasAll sig es) (hd : d ∈ s.sides es) :
    d.1.Over sig ∧ d.2.Over sig := by
  obtain ⟨e, -, -, inSig⟩ := h.exists_means (mem_sides.1 hd)
  exact inSig

theorem HasAll.sides_eq (h : s.HasAll sig es) (wf : s.WellFormed) (wf' : s'.WellFormed) (le : s ≤ s') :
    s'.sides es = s.sides es := by
  refine List.map_congr_left fun e he => ?_
  obtain ⟨l, r, means, -⟩ := h e he
  have means' := Equation.means_mono means wf wf' le
  rw [means.1.2, means.2.2, means'.1.2, means'.2.2]

end Store

/-- Directed equations, each followed by its reverse. -/
def bothWays (ds : List (Term × Term)) : List (Term × Term) := ds.flatMap fun d => [d, d.swap]

/-- What rules and then equations, these in both directions and only downwards, make of a term at the
top. -/
noncomputable def Term.top (gt : Term → Term → Prop) (R E : List (Term × Term)) (t : Term) : Term :=
  useAll gt (bothWays E) (useAll Anywhere R t)

theorem Term.top_equivariant (renamable : Renamable gt) : Equivariant (top gt R E) :=
  (useAll_equivariant renamable).comp (useAll_equivariant renamable_anywhere)

theorem Term.top_over (hR : ∀ d ∈ R, d.1.Over sig ∧ d.2.Over sig) (hE : ∀ d ∈ E, d.1.Over sig ∧ d.2.Over sig)
    (t : Term) (ht : t.Over sig) : (top gt R E t).Over sig := by
  refine useAll_over (useAll_over ht fun d hd => (hR d hd).2) fun d hd => ?_
  obtain ⟨c, hc, side⟩ := List.mem_flatMap.1 hd
  rcases List.mem_pair.1 side with rfl | rfl
  · exact (hE _ hc).2
  · exact (hE _ hc).1

namespace Reducer

variable {rd : Reducer} {st : ReduceState}

/-- The order answers as a relation says that does not depend on the names of variables. Rules and equations
have the given sides, and rules bring in no variables. -/
structure Decided (rd : Reducer) (s : Store) (sig : Signature) (gt : Term → Term → Prop)
    (R E : List (Term × Term)) : Prop where
  decides : rd.order.Decides sig gt
  blind : Term.Blind gt
  hasRules : s.HasAll sig rd.rules
  hasEquations : s.HasAll sig rd.equations
  rules : s.sides rd.rules = R
  equations : s.sides rd.equations = E
  binding : ∀ d ∈ R, ∀ v ∈ d.2.vars, v ∈ d.1.vars

theorem Decided.mono (h : rd.Decided s sig gt R E) (wf : s.WellFormed) (wf' : s'.WellFormed) (le : s ≤ s') :
    rd.Decided s' sig gt R E :=
  { h with
    hasRules := h.hasRules.mono wf wf' le
    hasEquations := h.hasEquations.mono wf wf' le
    rules := (h.hasRules.sides_eq wf wf' le).trans h.rules
    equations := (h.hasEquations.sides_eq wf wf' le).trans h.equations }

theorem useRule_exact (wf : s.WellFormed) (he : s.Means e (l, r)) (bound : ∀ v ∈ r.vars, v ∈ l.vars)
    (hd : s.Denotes t a) (ha : a.Over sig) :
    TermM.Ensures st s (useRule t e) (fun out st' s' => Keeps st st' ∧
      s'.Denotes out (Term.use Term.Anywhere (l, r) a)) (Spent st) := by
  refine useRule_ensures wf he hd (fun _ hd' none => ?_) fun σ s₁ wf₁ he₁ hd₁ found => ?_
  · rw [Term.use_unmatched none]
    exact ⟨.refl st, hd'⟩
  · refine (instantiate_spec wf₁ he₁ hd₁ ha found).mono ?_ fun _ _ _ _ h => h
    rintro out st' s' - - ⟨kept, u, η, hu, inst, -⟩
    have fires : Term.Fires Term.Anywhere (l, r) a u := ⟨bound, trivial, η, inst.left, inst.right⟩
    rw [fires.use_eq]
    exact ⟨kept, hu⟩

/-- What would bring in variables does not decrease. -/
theorem useEquation_exact {o : Order} (decides : o.Decides sig gt) (blind : Term.Blind gt) (wf : s.WellFormed)
    (he : s.Means e (l, r)) (hr : r.Over sig) (hd : s.Denotes t a) (ha : a.Over sig)
    (withheld : st.workspace.supply.Withholds a) :
    TermM.Ensures st s (useEquation o t e) (fun out st' s' => Keeps st st' ∧
      s'.Denotes out (Term.use gt (l, r) a)) (Spent st) := by
  refine useEquation_ensures (M := fun u st' => Keeps st st' ∧ (∃ η, Instantiates sig l r a u η) ∧
    ∀ v ∈ r.vars, v ∉ l.vars → ∃ x ∈ u.vars, x ∉ a.vars) decides wf he hd ha ?_ ?_ ?_
  · intro _ hd' none
    rw [Term.use_unmatched none]
    exact ⟨.refl st, hd'⟩
  · intro σ s₁ wf₁ he₁ hd₁ found
    refine (instantiate_spec wf₁ he₁ hd₁ ha found).mono ?_ fun _ _ _ _ h => h
    rintro out st' s' - - ⟨kept, u, η, hu, inst, -, apart⟩
    exact ⟨u, hu, inst.right ▸ hr.subst fun v _ => inst.inSig v, kept, ⟨η, inst⟩, apart withheld⟩
  · rintro yes u out st' w s' ⟨kept, ⟨η, inst⟩, apart⟩ - same answer hd' hu
    refine ⟨kept.trans ⟨rfl, same ▸ .refl _⟩, ?_⟩
    cases yes with
    | true =>
        have down := answer.1 rfl
        have bound : ∀ v ∈ r.vars, v ∈ l.vars := by
          intro v hv
          by_contra other
          obtain ⟨x, inside, outside⟩ := apart v hv other
          exact outside (blind.vars down x inside)
        have fires : Term.Fires gt (l, r) a u := ⟨bound, down, η, inst.left, inst.right⟩
        rw [fires.use_eq]
        exact hu
    | false =>
        have idle : Term.use gt (l, r) a = a := Term.use_eq_self fun u' fires => by
          have other : Term.Fires Term.Anywhere (l, r) a u' := ⟨fires.bound, trivial, fires.leads⟩
          obtain rfl := other.unique ⟨fires.bound, trivial, η, inst.left, inst.right⟩
          exact Bool.false_ne_true (answer.2 fires.admitted)
        rw [idle]
        exact hd'

/-- One use after the other. -/
theorem foldlM_exact {ok : Term → Term → Prop} {f : Ref → Equation → ReduceM Ref} (renamable : Term.Renamable ok)
    (has : s.HasAll sig es)
    (step : ∀ e ∈ es, ∀ {st : ReduceState} {s' : Store} {t : Ref} {a : Term}, s'.WellFormed → s ≤ s' →
      s'.Denotes t a → a.Over sig → st.workspace.supply.Withholds a →
      TermM.Ensures st s' (f t e) (fun out st' s'' => Keeps st st' ∧
        s''.Denotes out (Term.use ok (s.term e.lhs, s.term e.rhs) a)) (Spent st))
    (wf' : s'.WellFormed) (le : s ≤ s') (hd : s'.Denotes t a) (ha : a.Over sig)
    (withheld : st.workspace.supply.Withholds a) :
    TermM.Ensures st s' (es.foldlM f t) (fun out st' s'' => Keeps st st' ∧
      s''.Denotes out (Term.useAll ok (s.sides es) a)) (Spent st) := by
  refine (TermM.Ensures.foldlM (I := fun rest t st' s'' => Keeps st st' ∧ ∃ b, s''.Denotes t b ∧ b.Over sig ∧
    st'.workspace.supply.Withholds b ∧ Term.useAll ok (s.sides rest) b = Term.useAll ok (s.sides es) a)
    wf' ⟨.refl st, a, hd, ha, withheld, rfl⟩ ?_).mono ?_ fun _ _ _ _ h => h
  · rintro e he rest q st₁ s₁ wf₁ le₁ ⟨kept, b, hb, hb', withheld', same⟩
    obtain ⟨l, r, means, -, hr⟩ := has e he
    have equivariant : Term.Equivariant (Term.use ok (s.term e.lhs, s.term e.rhs)) :=
      Term.use_equivariant renamable
    refine (step e he wf₁ (le.trans le₁) hb hb' withheld').mono ?_ fun _ _ _ _ h => kept.trans h
    rintro out st₂ s₂ - - ⟨kept₂, hout⟩
    exact ⟨kept.trans kept₂, _, hout, Term.use_over hb' (means.2.2 ▸ hr),
      (withheld'.later kept₂.later).of_vars (equivariant.vars b), same⟩
  · rintro out st₁ s₁ - - ⟨kept, b, hb, -, -, rfl⟩
    exact ⟨kept, hb⟩

/-- Equations in both directions are stored as well, and have the sides of both. -/
theorem hasAll_bothWays {es : List Equation} (has : s.HasAll sig es) :
    s.HasAll sig (es.flatMap fun e => [e, e.reversed]) := by
  intro e he
  obtain ⟨l, r, means, hl, hr, -⟩ := has.means_bothWays he
  exact ⟨l, r, means, hl, hr⟩

theorem sides_bothWays (s : Store) (es : List Equation) :
    s.sides (es.flatMap fun e => [e, e.reversed]) = bothWays (s.sides es) := by
  rw [Store.sides, Store.sides, bothWays, List.map_flatMap, List.flatMap_map]
  rfl

theorem reduceTop_exact (h : rd.Decided s sig gt R E) (wf : s.WellFormed) (hd : s.Denotes t a)
    (ha : a.Over sig) (withheld : st.workspace.supply.Withholds a) :
    TermM.Ensures st s (rd.reduceTop t) (fun out st' s' => Keeps st st' ∧ s'.Denotes out (Term.top gt R E a))
      (Spent st) := by
  rw [reduceTop]
  refine (foldlM_exact Term.renamable_anywhere h.hasRules ?_ wf (le_refl s) hd ha withheld).bind ?_
  · intro e he st s' t a wf' le hd ha _
    obtain ⟨l, r, means, -⟩ := h.hasRules e he
    have bound := h.binding _ (h.rules ▸ Store.mem_sides.2 (Store.mem_theory he means))
    rw [means.1.2, means.2.2]
    exact useRule_exact wf' (Equation.means_mono means wf wf' le) bound hd ha
  · rintro q st₁ s₁ wf₁ le₁ ⟨kept₁, hq⟩
    rw [h.rules] at hq
    have ruled : Term.Equivariant (Term.useAll (fun _ _ => True) R) :=
      Term.useAll_equivariant Term.renamable_anywhere
    have hasBoth := hasAll_bothWays h.hasEquations
    have sides : s.sides (rd.equations.flatMap fun e => [e, e.reversed]) = bothWays E := by
      rw [sides_bothWays, h.equations]
    refine (foldlM_exact h.blind.renamable (hasBoth.mono wf wf₁ le₁) ?_ wf₁ (le_refl s₁) hq ?_
      ((withheld.later kept₁.later).of_vars (ruled.vars a))).mono ?_ fun _ _ _ _ h => kept₁.trans h
    · intro e he st s' t a wf' le hd ha withheld
      obtain ⟨l, r, means, hl, hr⟩ := hasBoth.mono wf wf₁ le₁ e he
      rw [means.1.2, means.2.2]
      exact useEquation_exact h.decides h.blind wf' (Equation.means_mono means wf₁ wf' le) hr hd ha withheld
    · exact Term.useAll_over ha fun d hd => (h.hasRules.sides_over (h.rules ▸ hd)).2
    · rintro out st₂ s₂ - - ⟨kept₂, hout⟩
      rw [hasBoth.sides_eq wf wf₁ le₁, sides] at hout
      exact ⟨kept₁.trans kept₂, hout⟩

theorem Decided.top_over (h : rd.Decided s sig gt R E) (t : Term) (ht : t.Over sig) :
    (Term.top gt R E t).Over sig := by
  rw [← h.rules, ← h.equations]
  exact Term.top_over (fun _ => h.hasRules.sides_over) (fun _ => h.hasEquations.sides_over) t ht

/-- Passes are walks. -/
theorem Decided.walk (h : rd.Decided s sig gt R E) (wf : s.WellFormed) :
    rd.Walk s (fun supply a => a.Over sig ∧ supply.Withholds a) (fun a u => Term.top gt R E a = u)
      (fun a b => Term.pass (Term.top gt R E) a = b) where
  top := by
    intro st s' t a wf' le hd ⟨ha, withheld⟩
    refine (reduceTop_exact (h.mono wf wf' le) wf' hd ha withheld).mono ?_ fun _ _ _ _ h => h
    exact fun out st' s'' _ _ ⟨kept, hout⟩ => ⟨kept, _, hout, rfl⟩
  later := fun ha later => ⟨ha.1, ha.2.later later⟩
  arg := by
    intro supply f as ⟨ha, withheld⟩ a mem
    exact ⟨(Term.over_app_iff.1 ha).2 a mem, withheld.of_vars fun v hv => Term.mem_vars_app.2 ⟨a, mem, hv⟩⟩
  args := by
    rintro supply f as bs ⟨ha, withheld⟩ passed
    obtain rfl : as.map (Term.pass (Term.top gt R E)) = bs :=
      (Store.eq_map_of_forall₂ (passed.imp fun _ _ h => h.symm)).symm
    obtain ⟨known, inSig⟩ := Term.over_app_iff.1 ha
    refine ⟨Term.over_app_iff.2 ⟨by rwa [List.length_map], fun b hb => ?_⟩, withheld.of_vars fun v hv => ?_⟩
    · obtain ⟨a, ha, rfl⟩ := List.mem_map.1 hb
      exact Term.pass_over h.top_over (inSig a ha)
    · obtain ⟨b, hb, hv⟩ := Term.mem_vars_app.1 hv
      obtain ⟨a, ha, rfl⟩ := List.mem_map.1 hb
      exact Term.mem_vars_app.2 ⟨a, ha, Term.pass_vars (Term.top_equivariant h.blind.renamable) a v hv⟩
  passed := by
    rintro supply a _ ⟨ha, withheld⟩ rfl
    exact ⟨Term.pass_over h.top_over ha,
      withheld.of_vars (Term.pass_vars (Term.top_equivariant h.blind.renamable) a)⟩
  var := fun _ use => use
  app := by
    rintro supply f as bs _ - passed rfl
    obtain rfl : as.map (Term.pass (Term.top gt R E)) = bs :=
      (Store.eq_map_of_forall₂ (passed.imp fun _ _ h => h.symm)).symm
    exact Term.pass_app f as

/-- The outcome denotes the normal form of the term. -/
def Finds (top : Term → Term) (s : Store) (a : Term) (out : Ref) : Prop :=
  ∃ b, s.Denotes out b ∧ Term.NormalForm top a b

theorem Finds.mono {top : Term → Term} {out : Ref} (h : Finds top s a out) (wf : s.WellFormed)
    (wf' : s'.WellFormed) (le : s ≤ s') : Finds top s' a out := by
  obtain ⟨b, hb, normal⟩ := h
  exact ⟨b, hb.mono wf wf' le, normal⟩

theorem normalize_exact (h : rd.Decided s sig gt R E) (wf : s.WellFormed)
    (noted : Noted (fun a b => Term.pass (Term.top gt R E) a = b) st s) (hd : s.Denotes t a)
    (ha : a.Over sig) (withheld : st.workspace.supply.Withholds a) :
    TermM.Ensures st s (rd.normalize t) (fun out st' s' =>
      Remains (fun a b => Term.pass (Term.top gt R E) a = b) st st' s' ∧ Finds (Term.top gt R E) s' a out)
      (Remains (fun a b => Term.pass (Term.top gt R E) a = b) st) := by
  refine ((h.walk wf).normalize wf noted hd ⟨ha, withheld⟩).mono ?_ fun _ _ _ _ h => h
  rintro out st' s' - - ⟨remains, b, hb, passes, fixed⟩
  exact ⟨remains, b, hb, passes, fixed⟩

end Reducer
end OrderedCompletion
