import OrderedCompletion.Proofs.CriticalPairs
import OrderedCompletion.Proofs.Peaks
import OrderedCompletion.Proofs.Simplification

/-! Two steps from one term lead to terms that meet again, or that superposition connects. -/

namespace OrderedCompletion

open Relation

variable {sig : Signature} {gt : Term → Term → Prop} {R : Theory} {gd ab : Term × Term}
variable {a b g d t u₁ u₂ w : Term} {θ : Var → Term}

/-- The laws of an order whose answers survive substitution. -/
structure StableOrder (sig : Signature) (gt : Term → Term → Prop) : Prop where
  irrefl : ∀ {s : Term}, s.Over sig → ¬ gt s s
  trans : ∀ {s t u : Term}, s.Over sig → t.Over sig → u.Over sig → gt s t → gt t u → gt s u
  subst : ∀ {s t : Term} {θ : Var → Term}, s.Over sig → t.Over sig → (∀ v, (θ v).Over sig) →
    gt s t → gt (s.subst θ) (t.subst θ)

theorem ReductionOrder.stable (h : ReductionOrder sig gt) : StableOrder sig gt :=
  ⟨h.irrefl, h.trans, h.subst⟩

/-- No instance of an equation that goes down is left out by superposition. -/
theorem StableOrder.not_idle (laws : StableOrder sig gt) (ha : a.Over sig) (hb : b.Over sig) (down : gt a b)
    (inSig : (a.subst θ).Over sig) (inSig' : (b.subst θ).Over sig) :
    ¬ Superposition.Idle (Says gt) (a, b) θ := by
  obtain ⟨η, hη, sameA, sameB⟩ := exists_over_subst inSig inSig'
  have below := laws.subst ha hb hη down
  rw [sameA, sameB] at below
  rintro (same | up)
  · rw [show a.subst θ = b.subst θ from same] at below
    exact laws.irrefl inSig' below
  · exact laws.irrefl inSig (laws.trans inSig inSig' inSig below (up.1 rfl))

/-- Both terms come from an instance of `gd.1` in which an instance of `ab.1` stands: one use of `gd` leads
to the first of them, one use of `ab` to the second. -/
def Overlapped (gd ab : Term × Term) (x y : Term) : Prop :=
  ∃ p ρ τ, Meets gd ab p ρ τ ∧ gd.2.subst ρ = x ∧ Term.replaceAt (ab.2.subst τ) (gd.1.subst ρ) p = y

/-- What two steps from a term come to. -/
def Meeting (R : Theory) (a b : Term) : Prop :=
  Join (ReflTransGen (InContext (Instance R))) a b ∨
    ∃ gd ∈ R, ∃ ab ∈ R, InContext (Overlapped gd ab) a b ∨ InContext (Overlapped gd ab) b a

theorem Meeting.symm (h : Meeting R a b) : Meeting R b a := by
  rcases h with ⟨z, left, right⟩ | ⟨gd, hgd, ab, hab, h⟩
  · exact .inl ⟨z, right, left⟩
  · exact .inr ⟨gd, hgd, ab, hab, h.symm⟩

theorem Meeting.arg {f : Head} {pre post : List Term} (h : Meeting R a b) :
    Meeting R (.app f (pre ++ a :: post)) (.app f (pre ++ b :: post)) := by
  rcases h with ⟨z, left, right⟩ | ⟨gd, hgd, ab, hab, h⟩
  · exact .inl ⟨_, InContext.chain_arg left, InContext.chain_arg right⟩
  · exact .inr ⟨gd, hgd, ab, hab, h.imp (.arg f pre post) (.arg f pre post)⟩

/-- A step at the top of a term and another one anywhere in it. -/
theorem Instance.meeting (inSig : ∀ l r, (l, r) ∈ R → l.Over sig) (h : Instance R w a)
    (h' : InContext (Instance R) w b) : Meeting R a b := by
  obtain ⟨l, r, ρ, rule, rfl, rfl⟩ := h
  rcases InContext.of_subst (inSig l r rule) h' with ⟨p, u, t, at_, app, use, rfl⟩ | ⟨x, t, step, chain⟩
  · obtain ⟨l', r', τ, rule', same, rfl⟩ := use
    exact .inr ⟨(l, r), rule, (l', r'), rule', .inl (.root ⟨p, ρ, τ, ⟨u, at_, app, same.symm⟩, rfl, rfl⟩)⟩
  · -- both sides go on to the instance in which the variable stands for the result of the step
    refine .inl ⟨r.subst (Function.update ρ x t), InContext.chain_update step r, chain.tail (.root ?_)⟩
    exact ⟨l, r, _, rule, rfl, rfl⟩

theorem meeting_of_steps (inSig : ∀ l r, (l, r) ∈ R → l.Over sig) (h : InContext (Instance R) t u₁)
    (h' : InContext (Instance R) t u₂) : Meeting R u₁ u₂ :=
  InContext.peak (I := fun _ => True) (M := fun _ a b => Meeting R a b) (fun _ => trivial)
    (fun _ top step => top.meeting inSig step) (fun h => h.symm) (fun _ h => h.arg)
    (fun _ first second => by
      obtain ⟨u, left, right⟩ := InContext.disjoint first second
      exact .inl ⟨u, .single left, .single right⟩)
    trivial h h'

section
variable {s s' : Store} {o : Order} {ws ws' : Workspace} {supply mid supply' : Supply}
variable {pairs : List Equation} {ρ ρ' : Var → Term} {x y : Term}

open Superposition in
/-- What overlaps is an instance of a pair of the renamed equations. -/
theorem Superposition.Crossed.of_overlapped (laws : StableOrder sig gt)
    (h : Crossed (Says gt) s (g.subst ρ', d.subst ρ') (a.subst ρ, b.subst ρ) pairs)
    (ren : Renames supply mid (sortVars (a.vars ++ b.vars)) ρ)
    (ren' : Renames mid supply' (sortVars (g.vars ++ d.vars)) ρ') (distinct : supply.Distinct)
    (hg : g.Over sig) (hd : d.Over sig) (ha : a.Over sig) (hb : b.Over sig) (outer : gt g d)
    (inner : gt a b) (overlapped : Overlapped (g, d) (a, b) x y) : Instance (s.theory pairs) x y := by
  obtain ⟨p, η, τ, meets, rfl, rfl⟩ := overlapped
  have ⟨u, at_, app, _⟩ := meets
  obtain ⟨κ, unifies, onGd, onAb⟩ := meets.exists_unifier ren ren' distinct at_
  have at' : (g.subst ρ').subtermAt p = some (u.subst ρ') := Term.subtermAt_subst at_
  obtain ⟨θ, out, mgu, outcome, sub⟩ := h.all p _ κ at' app.subst unifies
  have overG : (g.subst ρ').Over sig := ren'.over hg (by simp +contextual)
  have overA : (a.subst ρ).Over sig := ren.over ha (by simp +contextual)
  have hθ := mgu.inSig sig (overG.subtermAt at') overA
  have inSig : ∀ {t : Term}, t.Over sig → (t.subst θ).Over sig := fun ht => ht.subst fun v _ => hθ v
  cases out with
  | none =>
      -- neither of the two is left out
      have renamed : ∀ {l r : Term} {η : Var → Term}, Idle (Says gt) (l.subst η, r.subst η) θ →
          Idle (Says gt) (l, r) fun v => (η v).subst θ := by
        intro l r η idle
        simpa only [Idle, Term.subst_subst] using idle
      have image : ∀ {t : Term} {η : Var → Term}, (t.subst η).Over sig →
          (t.subst fun v => (η v).subst θ).Over sig := by
        intro t η ht
        rw [← Term.subst_subst]
        exact inSig ht
      rcases outcome with idle | idle
      · exact absurd (renamed idle) (laws.not_idle hg hd outer (image overG)
          (image (ren'.over hd (by simp +contextual))))
      · exact absurd (renamed idle) (laws.not_idle ha hb inner (image overA)
          (image (ren.over hb (by simp +contextual))))
  | some pair =>
      obtain ⟨-, -, means⟩ := outcome
      have onward : ∀ t : Term, (t.subst θ).subst κ = t.subst κ := by
        intro t
        rw [Term.subst_subst]
        exact Term.subst_congr fun v _ => mgu.general κ unifies v
      have back : ∀ {t : Term}, (∀ v ∈ t.vars, v ∈ g.vars ++ d.vars) → (t.subst ρ').subst κ = t.subst η := by
        intro t known
        rw [Term.subst_subst]
        exact Term.subst_congr fun v hv => onGd v (known v hv)
      have back' : ∀ {t : Term}, (∀ v ∈ t.vars, v ∈ a.vars ++ b.vars) → (t.subst ρ).subst κ = t.subst τ := by
        intro t known
        rw [Term.subst_subst]
        exact Term.subst_congr fun v hv => onAb v (known v hv)
      refine ⟨_, _, κ, Store.mem_theory (sub (List.mem_singleton_self pair)) means, ?_, ?_⟩
      · rw [onward, back (by simp +contextual)]
      · rw [onward, Term.replaceAt_subst at', back (by simp +contextual), back' (by simp +contextual)]

/-- The number of variables in an equation. -/
def Store.varCount (s : Store) (e : Equation) : Nat :=
  (sortVars ((s.term e.lhs).vars ++ (s.term e.rhs).vars)).length

/-- If two rules can be used on one term, the results either meet again or are connected by a critical pair
that superposition of two rules returns, with whatever fresh variables it renames these. -/
theorem criticalPairs_complete {rules : List Equation} (laws : StableOrder sig gt)
    (decides : o.Decides sig gt) (wf : s.WellFormed) (directed : ∀ e ∈ rules, s.Directed sig gt e)
    (step₁ : InContext (Instance (s.theory rules)) t u₁)
    (step₂ : InContext (Instance (s.theory rules)) t u₂) :
    Join (ReflTransGen (InContext (Instance (s.theory rules)))) u₁ u₂ ∨
    ∃ gd ∈ rules, ∃ ab ∈ rules, ∀ (w : Workspace) (s' : Store), w.supply.Distinct →
      w.supply.Provides (s.varCount ab + s.varCount gd) → s'.WellFormed → s ≤ s' →
      ∃ pairs w' s'', criticalPairs o gd ab w s' = ((.ok pairs, w'), s'') ∧
        Link (s''.theory pairs) u₁ u₂ := by
  have has : s.HasAll sig rules := .of_directed directed
  have inSig : ∀ l r, (l, r) ∈ s.theory rules → l.Over sig := by
    intro l r rule
    obtain ⟨e, -, -, hl, -⟩ := has.exists_means rule
    exact hl
  refine (meeting_of_steps inSig step₁ step₂).imp_right ?_
  rintro ⟨_, ⟨gd, hgd, rfl⟩, _, ⟨ab, hab, rfl⟩, overlapped⟩
  obtain ⟨g, d, meansG, hg, hd, outer⟩ := directed gd hgd
  obtain ⟨a, b, meansA, ha, hb, inner⟩ := directed ab hab
  refine ⟨gd, hgd, ab, hab, fun w s' distinct enough wf' le => ?_⟩
  rw [Store.varCount, Store.varCount, meansA.1.2, meansA.2.2, meansG.1.2, meansG.2.2] at enough
  rw [meansA.1.2, meansA.2.2, meansG.1.2, meansG.2.2] at overlapped
  have meansG' := Equation.means_mono meansG wf wf' le
  have meansA' := Equation.means_mono meansA wf wf' le
  have answers : o.Answers sig (Says gt) := decides
  have spec : TermM.Ensures w s' _ _ _ :=
    (Superposition.criticalPairs_provided answers wf' meansG' meansA' hg hd ha hb enough).and
      (Superposition.criticalPairs_crossed answers wf' meansG' meansA' hg hd ha hb)
  obtain ⟨pairs, w', s'', ran, -, -, -, ρ, ρ', mid, ren, ren', crossed⟩ :=
    (spec.mono (fun _ _ _ _ _ h => h) fun _ _ _ _ h => h.1).exists_eq
  have connects : ∀ x y, Overlapped (g, d) (a, b) x y → Instance (s''.theory pairs) x y := fun x y =>
    crossed.of_overlapped laws ren ren' distinct hg hd ha hb outer inner
  exact ⟨pairs, w', s'', ran, overlapped.imp (·.mono connects) (·.mono connects)⟩

end

/-- A table with three names. -/
def forgetting : SymbolTable := ⟨["f", "g", "c"], by decide⟩

theorem named_forgetting {i n : Nat} (small : i < 3) : Signature.interned forgetting (.symbol ⟨i⟩) n := by
  simpa [Signature.interned, SymbolTable.name?, forgetting] using small

/-- Two rules that overlap, with results that no further step leads together. -/
def forgetful : List Equation × Store :=
  Equation.listOfTerms [
    (.app (.symbol ⟨0⟩) [.app (.symbol ⟨1⟩) [.var 0], .var 1], .var 1),
    (.app (.symbol ⟨1⟩) [.app (.symbol ⟨2⟩) []], .app (.symbol ⟨2⟩) [])] .empty

theorem forgetful_wellFormed : forgetful.2.WellFormed := by
  rw [forgetful]
  apply Store.wellFormed_listOfTerms
  simp [Term.over_app_iff, Signature.full, Term.Over.var]

theorem forgetful_rules : forgetful.1 = [⟨3, 2⟩, ⟨5, 4⟩] ∧
    forgetful.2.Means ⟨3, 2⟩ (.app (.symbol ⟨0⟩) [.app (.symbol ⟨1⟩) [.var 0], .var 1], .var 1) ∧
    forgetful.2.Means ⟨5, 4⟩ (.app (.symbol ⟨1⟩) [.app (.symbol ⟨2⟩) []], .app (.symbol ⟨2⟩) []) := by
  unfold Store.Means Store.Denotes
  decide +kernel

theorem forgetful_directed : ∀ e ∈ forgetful.1, forgetful.2.Directed (.interned forgetting)
    (Lpo.Gt (Precedence.compare forgetting (.ranking []))) e := by
  obtain ⟨rules, first, second⟩ := forgetful_rules
  rw [rules]
  simp only [List.forall_mem_cons, List.not_mem_nil, false_implies, implies_true, and_true]
  refine ⟨⟨_, _, first, ?_, .var 1, .arg (by simp)⟩, ⟨_, _, second, ?_, ?_, .arg (by simp)⟩⟩
  · simp [Term.over_app_iff, Term.Over.var, named_forgetting]
  · simp [Term.over_app_iff, named_forgetting]
  · simp [Term.over_app_iff, named_forgetting]

theorem criticalPairs_complete_forgetful :
    Join (ReflTransGen (InContext (Instance (forgetful.2.theory forgetful.1)))) (.var 1)
      (.app (.symbol ⟨0⟩) [.app (.symbol ⟨2⟩) [], .var 1]) ∨
    ∃ gd ∈ forgetful.1, ∃ ab ∈ forgetful.1, ∃ pairs w' s'',
      criticalPairs (.lpo forgetting []) gd ab {} forgetful.2 = ((.ok pairs, w'), s'') ∧
      Link (s''.theory pairs) (.var 1) (.app (.symbol ⟨0⟩) [.app (.symbol ⟨2⟩) [], .var 1]) := by
  obtain ⟨rules, first, second⟩ := forgetful_rules
  have outer : InContext (Instance (forgetful.2.theory forgetful.1))
      (.app (.symbol ⟨0⟩) [.app (.symbol ⟨1⟩) [.app (.symbol ⟨2⟩) []], .var 1]) (.var 1) :=
    .root ⟨_, _, fun v => if v = 0 then .app (.symbol ⟨2⟩) [] else .var v,
      Store.mem_theory (by rw [rules]; simp) first, by simp, by simp⟩
  have inner : InContext (Instance (forgetful.2.theory forgetful.1))
      (.app (.symbol ⟨0⟩) [.app (.symbol ⟨1⟩) [.app (.symbol ⟨2⟩) []], .var 1])
      (.app (.symbol ⟨0⟩) [.app (.symbol ⟨2⟩) [], .var 1]) :=
    .arg (.symbol ⟨0⟩) [] [.var 1] (.root ⟨_, _, .var, Store.mem_theory (by rw [rules]; simp) second,
      by simp, by simp⟩)
  have lawful := Precedence.lawful forgetting []
  refine (criticalPairs_complete (Lpo.reductionOrder lawful).stable (Order.lpo_decides forgetting [])
    forgetful_wellFormed forgetful_directed outer inner).imp_right ?_
  rintro ⟨gd, hgd, ab, hab, connects⟩
  have few : ∀ e ∈ forgetful.1, forgetful.2.varCount e ≤ 2 := by decide +kernel
  have provides : Supply.Provides 4 ({} : Workspace).supply := by decide +kernel
  exact ⟨gd, hgd, ab, hab, connects {} forgetful.2 trivial
    (provides.mono (Nat.add_le_add (few ab hab) (few gd hgd))) forgetful_wellFormed (le_refl _)⟩

end OrderedCompletion
