import OrderedCompletion.Proofs.Matching
import OrderedCompletion.Proofs.Passes
import OrderedCompletion.Proofs.Peaks
import OrderedCompletion.Proofs.Rewriting
import OrderedCompletion.Proofs.System

/-! Normalization rewrites, and what it leaves is settled if the answers of the order can be relied on. -/

namespace OrderedCompletion

namespace Reducer

variable {G : Gauge} {rd : Reducer} {s s' : Store} {st : ReduceState} {R E : Theory}
variable {t : Ref} {a : Term} {e : Equation} {l r : Term} {σ : Subst} {θ : Var → Term}

/-- Rules and equations are those of two theories, and the rules go down. -/
structure Valid (rd : Reducer) (G : Gauge) (s : Store) (R E : Theory) : Prop where
  obeys : rd.order.Obeys G
  hasRules : s.HasAll G.sig rd.rules
  hasEquations : s.HasAll G.sig rd.equations
  rules : s.theory rd.rules = R
  equations : s.theory rd.equations = E
  descends : G.Descends R

theorem Valid.mono (h : rd.Valid G s R E) (wf : s.WellFormed) (wf' : s'.WellFormed) (le : s ≤ s') :
    rd.Valid G s' R E where
  obeys := h.obeys
  hasRules := h.hasRules.mono wf wf' le
  hasEquations := h.hasEquations.mono wf wf' le
  rules := (h.hasRules.theory_eq wf wf' le).trans h.rules
  equations := (h.hasEquations.theory_eq wf wf' le).trans h.equations
  descends := h.descends

/-- Unbound variables stand for themselves or for variables that are drawn, and for none of the target if none
of these will be drawn. -/
theorem bindClashes_spec {targetVars vs : List Var} (wf : s.WellFormed) (hb : s.Binds σ θ) :
    TermM.Ensures st s (bindClashes targetVars σ vs) (fun σ' st' s' => Keeps st st' ∧
      ∃ η, s'.Binds σ' η ∧ (∀ v q, σ.find? v = some q → η v = θ v) ∧
        ∀ v, σ.find? v = none → ∃ x, η v = .var x ∧ (x = v ∨ st.workspace.supply.Offers x) ∧
          ((∀ y ∈ targetVars, ¬ st.workspace.supply.Offers y) → v ∈ vs ∨ v ∉ targetVars →
            x ∉ targetVars)) (Spent st) := by
  induction vs generalizing st s σ θ with
  | nil =>
      refine .pure wf ⟨.refl st, θ, hb, fun _ _ _ => rfl, fun v hv => ⟨v, hb.free v hv, .inl rfl, ?_⟩⟩
      exact fun _ apart => by simpa using apart
  | cons v vs ih =>
      rw [bindClashes]
      split
      · rename_i clash
        have unbound : σ.find? v = none := by
          simp only [Bool.and_eq_true, Bool.not_eq_true'] at clash
          exact Subst.find?_eq_none.2 clash.1
        refine ((TermM.Ensures.within (Workspace.drawVar_spec wf)).mono (fun _ _ _ _ _ h => h) ?_).bind ?_
        · rintro _ s' - - ⟨w', rfl, later⟩
          exact ⟨rfl, later⟩
        · rintro q _ s₁ wf₁ le₁ ⟨w₁, rfl, later, x, hx, offers, -⟩
          have drawn : Keeps st { st with workspace := w₁ } := ⟨rfl, later⟩
          refine (ih wf₁ ((hb.mono wf wf₁ le₁).bind (v := v) hx)).mono ?_ fun _ _ _ _ h => drawn.trans h
          rintro σ' st' s' - - ⟨kept, η, hη, same, free⟩
          refine ⟨drawn.trans kept, η, hη, fun u q' hu => ?_, fun u hu => ?_⟩
          · have other : u ≠ v := by
              rintro rfl
              rw [unbound] at hu
              cases hu
            rw [same u q' (by rw [Subst.find?_bind, if_neg other, hu]), if_neg other]
          · by_cases here : u = v
            · refine ⟨x, ?_, .inr offers, fun withheld _ inside => withheld x inside offers⟩
              rw [same u q (by rw [Subst.find?_bind, if_pos here]), if_pos here]
            · obtain ⟨y, hy, origin, apart⟩ := free u (by rw [Subst.find?_bind, if_neg here, hu])
              refine ⟨y, hy, origin.imp_right (later.offers y), fun withheld known =>
                apart (fun z hz offered => ?_) ?_⟩
              · exact withheld z hz (later.offers z offered)
              · exact known.imp_left fun hu => (List.mem_cons.1 hu).resolve_left here
      · rename_i noClash
        refine (ih wf hb).mono ?_ fun _ _ _ _ h => h
        rintro σ' st' s' - - ⟨kept, η, hη, same, free⟩
        refine ⟨kept, η, hη, same, fun u hu => ?_⟩
        obtain ⟨y, hy, origin, apart⟩ := free u hu
        refine ⟨y, hy, origin, fun withheld known => apart withheld ?_⟩
        rcases known with hu' | other
        · rcases List.mem_cons.1 hu' with rfl | hu'
          · have unbound := Subst.find?_eq_none.1 hu
            simp only [unbound, Bool.not_false, Bool.true_and, List.contains_iff_mem] at noClash
            exact .inr noClash
          · exact .inl hu'
        · exact .inr other

/-- An instance of a rule whose left side is the term. Variables that only the right side has stand for
variables. -/
structure Instantiates (sig : Signature) (l r a u : Term) (η : Var → Term) : Prop where
  left : l.subst η = a
  right : r.subst η = u
  inSig : ∀ v, (η v).Over sig
  free : ∀ v, v ∉ l.vars → ∃ x, η v = .var x

/-- Variables of the outcome come from the target and the right side or are drawn. If no variable of the target
will be drawn, what only the right side has brings in other variables. -/
theorem instantiate_spec {sig : Signature} (wf : s.WellFormed) (he : s.Means e (l, r)) (hd : s.Denotes t a)
    (ha : a.Over sig)
    (found : Store.Refines s.Knows s.Agrees .empty (fun θ => l.subst θ = a) (some σ)) :
    TermM.Ensures st s (instantiate e σ t) (fun out st' s' => Keeps st st' ∧
      ∃ u η, s'.Denotes out u ∧ Instantiates sig l r a u η ∧
        (∀ x ∈ u.vars, x ∈ a.vars ∨ x ∈ r.vars ∨ st.workspace.supply.Offers x) ∧
        (st.workspace.supply.Withholds a → ∀ v ∈ r.vars, v ∉ l.vars → ∃ x ∈ u.vars, x ∉ a.vars))
      (Spent st) := by
  obtain ⟨matched, inside⟩ := found.matches
  have binds := found.1.binds
  rw [instantiate]
  refine .bindLift (Store.vars_spec wf hd) ?_
  rintro _ s₁ wf₁ le₁ ⟨rfl, -⟩
  refine .bindLift (Store.vars_spec wf₁ (he.2.mono wf wf₁ le₁)) ?_
  rintro _ s₂ wf₂ le₂ ⟨rfl, -⟩
  have le₁₂ := le₁.trans le₂
  refine ((bindClashes_spec wf₂ (binds.mono wf wf₂ le₁₂)).bind ?_)
  rintro σ' st₃ s₃ wf₃ le₃ ⟨kept, η, hη, same, free⟩
  refine .lift (Store.apply_spec wf₃ hη (he.2.mono wf wf₃ (le₁₂.trans le₃))) fun out s₄ _ _ hout => ?_
  have left : l.subst η = a := matched η fun v q hv => by
    rw [same v q hv]
    exact binds.bound v q hv
  have unbound : ∀ v, v ∉ l.vars → σ.find? v = none := by
    intro v hv
    cases hv' : σ.find? v with
    | none => rfl
    | some q => exact absurd (inside v q hv') hv
  refine ⟨kept, _, η, hout, ⟨left, rfl, fun v => ?_, fun v hv => ?_⟩, fun x hx => ?_,
    fun withheld v hv other => ?_⟩
  · cases hv : σ.find? v with
    | some q => exact Term.Over.of_mem_vars (left ▸ ha) (inside v q hv)
    | none =>
        obtain ⟨x, hx, -⟩ := free v hv
        rw [hx]
        exact .var x
  · obtain ⟨x, hx, -⟩ := free v (unbound v hv)
    exact ⟨x, hx⟩
  · obtain ⟨v, hv, hx⟩ := Term.mem_vars_subst.1 hx
    by_cases inside : v ∈ l.vars
    · exact .inl (left ▸ Term.mem_vars_subst.2 ⟨v, inside, hx⟩)
    · obtain ⟨y, hy, origin, -⟩ := free v (unbound v inside)
      rw [hy, Term.mem_vars_var] at hx
      subst hx
      refine .inr (origin.imp_left ?_)
      rintro rfl
      exact hv
  · obtain ⟨x, hx, -, apart⟩ := free v (unbound v other)
    refine ⟨x, Term.mem_vars_subst.2 ⟨v, hv, ?_⟩, apart withheld (.inl hv)⟩
    rw [hx, Term.mem_vars_var]

section
variable {Q : Ref → ReduceState → Store → Prop} {F : ReduceState → Store → Prop}

/-- What becomes of a use at the top of a term: the term stays if the left side does not match it, and
otherwise it is what is made of the match. -/
theorem match_ensures {use : Subst → ReduceM Ref} (wf : s.WellFormed) (he : s.Means e (l, r))
    (hd : s.Denotes t a)
    (unmatched : ∀ s', s'.Denotes t a → (∀ θ, l.subst θ ≠ a) → Q t st s')
    (matched : ∀ σ s', s'.WellFormed → s'.Means e (l, r) → s'.Denotes t a →
      Store.Refines s'.Knows s'.Agrees .empty (fun θ => l.subst θ = a) (some σ) →
      TermM.Ensures st s' (use σ) Q F) :
    TermM.Ensures st s (do
      match ← (Store.match? e.lhs t).run with
      | some σ => use σ
      | none => return t) Q F := by
  refine .bindLift (Store.match?_spec wf he.1 hd) ?_
  rintro found s₁ wf₁ le₁ ⟨-, h⟩
  have hd₁ := hd.mono wf wf₁ le₁
  cases found with
  | none => exact .pure wf₁ (unmatched s₁ hd₁ fun θ => h θ (Store.agrees_empty θ))
  | some σ => exact matched σ s₁ wf₁ (Equation.means_mono he wf wf₁ le₁) hd₁ h

theorem useRule_ensures (wf : s.WellFormed) (he : s.Means e (l, r)) (hd : s.Denotes t a)
    (unmatched : ∀ s', s'.Denotes t a → (∀ θ, l.subst θ ≠ a) → Q t st s')
    (matched : ∀ σ s', s'.WellFormed → s'.Means e (l, r) → s'.Denotes t a →
      Store.Refines s'.Knows s'.Agrees .empty (fun θ => l.subst θ = a) (some σ) →
      TermM.Ensures st s' (instantiate e σ t) Q F) :
    TermM.Ensures st s (useRule t e) Q F :=
  match_ensures wf he hd unmatched matched

/-- The instance that an equation leads to, of which `M` holds once it is made, is taken if the order says so.
To ask the order draws no variables. -/
theorem useEquation_ensures {o : Order} {sig : Signature} {J : Bool → Term → Term → Prop}
    {M : Term → ReduceState → Prop} (answers : o.Answers sig J) (wf : s.WellFormed)
    (he : s.Means e (l, r)) (hd : s.Denotes t a) (ha : a.Over sig)
    (unmatched : ∀ s', s'.Denotes t a → (∀ θ, l.subst θ ≠ a) → Q t st s')
    (made : ∀ σ s', s'.WellFormed → s'.Means e (l, r) → s'.Denotes t a →
      Store.Refines s'.Knows s'.Agrees .empty (fun θ => l.subst θ = a) (some σ) →
      TermM.Ensures st s' (instantiate e σ t)
        (fun out st' s'' => ∃ u, s''.Denotes out u ∧ u.Over sig ∧ M u st') F)
    (asked : ∀ yes u out st' w s', M u st' → u.Over sig → w.supply = st'.workspace.supply → J yes a u →
      s'.Denotes t a → s'.Denotes out u →
      Q (if yes then out else t) { st' with workspace := w } s') :
    TermM.Ensures st s (useEquation o t e) Q F := by
  refine match_ensures wf he hd unmatched fun σ s₁ wf₁ he₁ hd₁ found => ?_
  refine (made σ s₁ wf₁ he₁ hd₁ found).bind ?_
  rintro out st₂ s₂ wf₂ le₂ ⟨u, hu, hu', here⟩
  have hd₂ := hd₁.mono wf₁ wf₂ le₂
  have question := Workspace.ask_answers (F := fun _ _ => False) (ε := Exhausted) (w := st₂.workspace) answers wf₂
    hd₂ hu ha hu'
  refine ((TermM.Ensures.within question).mono (fun _ _ _ _ _ h => h) ?_).bind ?_
  · rintro _ s' - - ⟨w, -, no⟩
    exact no.elim
  · rintro yes _ s₃ wf₃ le₃ ⟨w, rfl, same, answer⟩
    have done := asked yes u out st₂ w s₃ here hu' same answer (hd₂.mono wf₂ wf₃ le₃) (hu.mono wf₂ wf₃ le₃)
    cases yes with
    | true => exact .pure wf₃ done
    | false => exact .pure wf₃ done

end

/-- A use at the top: nothing happens and something is known of the term, or the term is rewritten. -/
def Uses (G : Gauge) (R E : Theory) (idle : Term → Prop) (a u : Term) : Prop :=
  u = a ∧ idle a ∨ G.Root R E a u

theorem useRule_spec (wf : s.WellFormed) (he : s.Means e (l, r)) (hl : (l, r) ∈ R)
    (hr : r.Over G.sig) (hd : s.Denotes t a) (ha : a.Over G.sig) :
    TermM.Ensures st s (useRule t e) (fun out st' s' => Keeps st st' ∧
      ∃ u, s'.Denotes out u ∧ Uses G R E (fun a => ∀ θ, l.subst θ ≠ a) a u) (Spent st) := by
  refine useRule_ensures wf he hd (fun _ hd' none => ⟨.refl st, a, hd', .inl ⟨rfl, none⟩⟩) ?_
  intro σ s₁ wf₁ he₁ hd₁ found
  refine (instantiate_spec wf₁ he₁ hd₁ ha found).mono ?_ fun _ _ _ _ h => h
  rintro out st' s' - - ⟨kept, u, η, hu, inst, -⟩
  refine ⟨kept, u, hu, .inr ⟨?_, l, r, η, inst.left, inst.right, inst.free, .inl hl⟩⟩
  rw [← inst.right]
  exact hr.subst fun v _ => inst.inSig v

theorem useEquation_spec {o : Order} (obeys : o.Obeys G) (wf : s.WellFormed) (he : s.Means e (l, r))
    (hl : (l, r) ∈ E ∨ (r, l) ∈ E) (hr : r.Over G.sig) (hd : s.Denotes t a) (ha : a.Over G.sig) :
    TermM.Ensures st s (useEquation o t e) (fun out st' s' => Keeps st st' ∧
      ∃ u, s'.Denotes out u ∧ Uses G R E (fun a => G.strict → G.Refuses l r a) a u) (Spent st) := by
  refine useEquation_ensures (M := fun u st' => Keeps st st' ∧ ∃ η, Instantiates G.sig l r a u η) obeys wf he
    hd ha ?_ ?_ ?_
  · exact fun _ hd' none => ⟨.refl st, a, hd', .inl ⟨rfl, fun _ θ same => absurd same (none θ)⟩⟩
  · intro σ s₁ wf₁ he₁ hd₁ found
    refine (instantiate_spec wf₁ he₁ hd₁ ha found).mono ?_ fun _ _ _ _ h => h
    rintro out st' s' - - ⟨kept, u, η, hu, inst, -⟩
    exact ⟨u, hu, inst.right ▸ hr.subst fun v _ => inst.inSig v, kept, η, inst⟩
  · rintro yes u out st' w s' ⟨kept, η, inst⟩ hu' same ⟨down, up⟩ hd' hu
    refine ⟨kept.trans ⟨rfl, same ▸ .refl _⟩, ?_⟩
    cases yes with
    | true =>
        exact ⟨u, hu, .inr ⟨hu', l, r, η, inst.left, inst.right, inst.free, .inr ⟨hl, down rfl⟩⟩⟩
    | false =>
        refine ⟨a, hd', .inl ⟨rfl, fun strict θ _ => ⟨η, inst.left, ?_, inst.free⟩⟩⟩
        rw [inst.right]
        exact up strict rfl

/-- One use after the other rewrites, and changes nothing only if each use is idle. -/
theorem foldlM_uses {f : Ref → Equation → ReduceM Ref} {es : List Equation}
    (idle : Equation → Term → Prop) (desc : G.Descends R)
    (step : ∀ e ∈ es, ∀ {st : ReduceState} {s' : Store} {t : Ref} {a : Term}, s'.WellFormed → s ≤ s' →
      s'.Denotes t a → a.Over G.sig → TermM.Ensures st s' (f t e) (fun out st' s'' => Keeps st st' ∧
        ∃ u, s''.Denotes out u ∧ Uses G R E (idle e) a u) (Spent st))
    (wf' : s'.WellFormed) (le : s ≤ s') (hd : s'.Denotes t a) (ha : a.Over G.sig) :
    TermM.Ensures st s' (es.foldlM f t) (fun out st' s'' => Keeps st st' ∧
      ∃ u, s''.Denotes out u ∧ G.Reduces R E a u ∧ (G.strict → u = a → ∀ e ∈ es, idle e a))
      (Spent st) := by
  refine (TermM.Ensures.foldlM (I := fun rest t st' s'' => Keeps st st' ∧
    ∃ u, s''.Denotes t u ∧ G.Reduces R E a u ∧ (G.strict → u = a → ∀ e ∈ es, e ∉ rest → idle e a)) wf'
    ⟨.refl st, a, hd, .refl, fun _ _ e he apart => absurd he apart⟩ ?_).mono ?_ fun _ _ _ _ h => h
  · rintro e he rest q st₁ s₁ wf₁ le₁ ⟨kept, u, hu, chain, idles⟩
    have hu' := chain.inSig ha
    refine (step e he wf₁ (le.trans le₁) hu hu').mono ?_ fun _ _ _ _ h => kept.trans h
    rintro out st₂ s₂ - - ⟨kept₂, z, hz, ⟨rfl, idleNow⟩ | root⟩
    · refine ⟨kept.trans kept₂, z, hz, chain, fun strict same e' he' apart => ?_⟩
      subst same
      by_cases here : e' = e
      · exact here ▸ idleNow
      · exact idles strict rfl e' he' (List.not_mem_cons_of_ne_of_not_mem here apart)
    · refine ⟨kept.trans kept₂, z, hz, chain.tail (.root root), fun strict same => ?_⟩
      -- a term that was rewritten does not come back
      have down := root.gt desc hu'
      rw [same] at down
      exact absurd (G.gt_of_gt_of_le hu' ha hu' down (chain.le desc ha)) (G.irrefl strict hu')
  · rintro out st₁ s₁ - - ⟨kept, u, hu, chain, idles⟩
    exact ⟨kept, u, hu, chain, fun strict same e he => idles strict same e he List.not_mem_nil⟩

theorem reduceTop_spec (valid : rd.Valid G s R E) (wf : s.WellFormed) (hd : s.Denotes t a)
    (ha : a.Over G.sig) :
    TermM.Ensures st s (rd.reduceTop t) (fun out st' s' => Keeps st st' ∧
      ∃ u, s'.Denotes out u ∧ G.Reduces R E a u ∧ (G.strict → u = a → G.Inert R E a)) (Spent st) := by
  rw [reduceTop]
  refine ((foldlM_uses (s := s) (R := R) (E := E) (fun e a => ∀ θ, (s.term e.lhs).subst θ ≠ a)
    valid.descends ?_ wf (le_refl s) hd ha).bind ?_)
  · intro e he st s' t a wf' le hd ha
    obtain ⟨l, r, means, -, hr⟩ := valid.hasRules e he
    rw [means.1.2]
    exact useRule_spec wf' (Equation.means_mono means wf wf' le)
      (valid.rules ▸ Store.mem_theory he means) hr hd ha
  · rintro q st₁ s₁ wf₁ le₁ ⟨kept₁, u, hu, chain₁, idle₁⟩
    have hu' := chain₁.inSig ha
    refine ((foldlM_uses (s := s) (R := R) (E := E)
      (fun e a => G.strict → G.Refuses (s.term e.lhs) (s.term e.rhs) a)
      valid.descends ?_ wf₁ le₁ hu hu').mono ?_ fun _ _ _ _ h => kept₁.trans h)
    · intro e he st s' t a wf' le hd ha
      obtain ⟨l, r, means, -, hr, mem⟩ := valid.hasEquations.means_bothWays he
      rw [means.1.2, means.2.2]
      exact useEquation_spec valid.obeys wf' (Equation.means_mono means wf wf' le) (valid.equations ▸ mem) hr hd ha
    · rintro out st₂ s₂ - - ⟨kept₂, z, hz, chain₂, idle₂⟩
      refine ⟨kept₁.trans kept₂, z, hz, chain₁.trans chain₂, fun strict same => ?_⟩
      subst same
      have between : u = z := by
        have hz' := chain₂.inSig hu'
        exact G.le_antisymm strict hu' hz' (chain₁.le valid.descends ha) (chain₂.le valid.descends hu')
      subst between
      have noRule := idle₁ strict rfl
      have noEquation := idle₂ strict rfl
      refine ⟨fun l r hl θ => ?_, fun l r hl => ?_⟩
      · obtain ⟨e, he, means, -⟩ := valid.hasRules.exists_means (valid.rules ▸ hl)
        have no := noRule e he θ
        rwa [means.1.2] at no
      · obtain ⟨e, he, means⟩ := valid.hasEquations.exists_means_bothWays (valid.equations ▸ hl)
        have no := noEquation e he strict
        rwa [means.1.2, means.2.2] at no

/-- What a pass makes of a term: it rewrites, and changes nothing only if nothing can be used. -/
def Passes (G : Gauge) (R E : Theory) (a b : Term) : Prop :=
  G.Reduces R E a b ∧ (G.strict → b = a → G.Settled R E a)

/-- Terms over the signature are walked. -/
theorem Valid.walk (valid : rd.Valid G s R E) (wf : s.WellFormed) :
    rd.Walk s (fun _ a => a.Over G.sig)
      (fun a u => G.Reduces R E a u ∧ (G.strict → u = a → G.Inert R E a)) (Passes G R E) where
  top := fun wf' le hd ha => reduceTop_spec (valid.mono wf wf' le) wf' hd ha
  later := fun ha _ => ha
  arg := fun ha => (Term.over_app_iff.1 ha).2
  args := by
    intro _ f as bs ha passed
    have chain : G.Reduces R E (.app f as) (.app f bs) :=
      InContext.chain_args (passed.imp fun _ _ h => h.1)
    exact chain.inSig ha
  passed := fun ha passes => passes.1.inSig ha
  var := fun _ ⟨chain, idle⟩ => ⟨chain, fun strict same => .var (idle strict same)⟩
  app := by
    rintro _ f as bs c ha passed ⟨chain', idle⟩
    have chain : G.Reduces R E (.app f as) (.app f bs) :=
      InContext.chain_args (passed.imp fun _ _ h => h.1)
    refine ⟨chain.trans chain', fun strict same => ?_⟩
    -- nothing has changed in between either
    subst same
    have hb := chain.inSig ha
    have between : Term.app f bs = .app f as :=
      G.le_antisymm strict hb ha (chain.le valid.descends ha) (chain'.le valid.descends hb)
    obtain rfl : bs = as := (Term.app.inj between).2
    exact .app (idle strict rfl) fun a ha => (List.forall₂_same.1 passed a ha).2 strict rfl

/-- The outcome denotes a settled term that the given one rewrites to. -/
def Normalizes (G : Gauge) (R E : Theory) (s : Store) (a : Term) (out : Ref) : Prop :=
  ∃ b, s.Denotes out b ∧ G.Reduces R E a b ∧ (G.strict → G.Settled R E b)

theorem Normalizes.mono {out : Ref} (h : Normalizes G R E s a out) (wf : s.WellFormed)
    (wf' : s'.WellFormed) (le : s ≤ s') : Normalizes G R E s' a out := by
  obtain ⟨b, hb, rest⟩ := h
  exact ⟨b, hb.mono wf wf' le, rest⟩

theorem Settles.normalizes {out : Ref} (h : Settles (Passes G R E) s a out) : Normalizes G R E s a out := by
  obtain ⟨b, hb, chain, fixed⟩ := h
  refine ⟨b, hb, ?_, fun strict => fixed.2 strict rfl⟩
  clear hb fixed
  induction chain with
  | refl => exact .refl
  | tail _ next ih => exact ih.trans next.1

theorem normalize_spec (valid : rd.Valid G s R E) (wf : s.WellFormed) (noted : Noted (Passes G R E) st s)
    (hd : s.Denotes t a) (ha : a.Over G.sig) :
    TermM.Ensures st s (rd.normalize t) (fun out st' s' =>
      Remains (Passes G R E) st st' s' ∧ Normalizes G R E s' a out) (Remains (Passes G R E) st) :=
  ((valid.walk wf).normalize wf noted hd ha).mono (fun _ _ _ _ _ h => h.imp_right Settles.normalizes)
    fun _ _ _ _ h => h

theorem normalizeAll_spec {ts : List Ref} {as : List Term} (valid : rd.Valid G s R E)
    (wf : s.WellFormed) (noted : Noted (Passes G R E) st s) (hd : s.DenotesAll ts as)
    (has : ∀ a ∈ as, a.Over G.sig) :
    TermM.Ensures st s (rd.normalizeAll ts) (fun outs st' s' =>
      Remains (Passes G R E) st st' s' ∧ List.Forall₂ (Normalizes G R E s') as outs)
      (Remains (Passes G R E) st) := by
  induction ts generalizing st s as with
  | nil =>
      cases hd
      exact .pure wf ⟨⟨noted, .refl _⟩, .nil⟩
  | cons t ts ih =>
      cases hd with
      | @cons _ a _ as hd hds =>
          rw [normalizeAll]
          refine ((normalize_spec valid wf noted hd (has a List.mem_cons_self)).bind ?_)
          rintro u st₁ s₁ wf₁ le₁ ⟨⟨noted₁, later₁⟩, first⟩
          refine (((ih (valid.mono wf wf₁ le₁) wf₁ noted₁ (Store.DenotesAll.mono hds wf wf₁ le₁)
            fun a ha => has a (List.mem_cons_of_mem _ ha)).mono (fun _ _ _ _ _ h => h)
            fun _ _ _ _ h => h.after later₁).bind ?_)
          rintro us st₂ s₂ wf₂ le₂ ⟨remains, rest⟩
          exact .pure wf₂ ⟨remains.after later₁, .cons (first.mono wf₁ wf₂ le₂) rest⟩

end Reducer
end OrderedCompletion
