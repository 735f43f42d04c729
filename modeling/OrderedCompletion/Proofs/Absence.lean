import OrderedCompletion.Proofs.Confined
import OrderedCompletion.Proofs.CriticalPairs

/-! A variable that cannot be drawn comes into no term by superposition, by normalization or by a step. -/

namespace OrderedCompletion

variable {v : Var} {s s' : Store} {o : Order} {a b l r : Term} {e : Equation} {es : List Equation}

/-- The variable does not occur in the term. -/
def Term.Lacks (v : Var) (t : Term) : Prop := v ∉ t.vars

theorem Term.Lacks.subst {θ : Var → Term} (h : ∀ x ∈ a.vars, (θ x).Lacks v) : (a.subst θ).Lacks v := by
  intro hv
  obtain ⟨x, hx, hv⟩ := mem_vars_subst.1 hv
  exact h x hx hv

theorem Term.lacks_app {f : Head} {as : List Term} : (app f as).Lacks v ↔ ∀ a ∈ as, a.Lacks v := by
  simp only [Lacks, mem_vars_app, not_exists, not_and]

namespace Store

/-- The reference leads to a term in which the variable does not occur. -/
def Lacks (v : Var) (s : Store) (r : Ref) : Prop := ∃ t, s.Denotes r t ∧ t.Lacks v

/-- The variable does not occur in the equation. -/
abbrev Omits (v : Var) (s : Store) (e : Equation) : Prop := s.Among (Term.Lacks v) e

/-- The same of all equations of a list. -/
abbrev OmitsAll (v : Var) (s : Store) (es : List Equation) : Prop := s.AmongAll (Term.Lacks v) es

theorem Lacks.mono {r : Ref} (h : s.Lacks v r) (wf : s.WellFormed) (wf' : s'.WellFormed) (le : s ≤ s') :
    s'.Lacks v r := by
  obtain ⟨t, ht, lacks⟩ := h
  exact ⟨t, ht.mono wf wf' le, lacks⟩

theorem omits_iff : s.Omits v e ↔ s.Lacks v e.lhs ∧ s.Lacks v e.rhs := by
  constructor
  · rintro ⟨l, r, means, left, right⟩
    exact ⟨⟨l, means.1, left⟩, r, means.2, right⟩
  · rintro ⟨⟨l, hl, left⟩, r, hr, right⟩
    exact ⟨l, r, ⟨hl, hr⟩, left, right⟩

theorem Omits.reversed (h : s.Omits v e) : s.Omits v e.reversed :=
  omits_iff.2 (omits_iff.1 h).symm

theorem OmitsAll.hasAll (h : s.OmitsAll v es) (wf : s.WellFormed) : s.HasAll .full es := by
  intro e he
  obtain ⟨l, r, means, -⟩ := h e he
  exact ⟨l, r, means, means.1.over_full wf, means.2.over_full wf⟩

end Store

theorem Order.Preserves.answers (h : o.Preserves) : o.Answers .full fun _ _ _ => True :=
  fun wf ha hb _ _ => h wf ha.1 hb.1

theorem Renames.lacks {supply supply' : Supply} {vs : List Var} {ρ : Var → Term}
    (h : Renames supply supply' vs ρ) (away : ¬ supply.Offers v) (known : ∀ x ∈ a.vars, x ∈ vs) :
    (a.subst ρ).Lacks v := by
  refine .subst fun x hx => ?_
  obtain ⟨y, hy, offered, -⟩ := h.fresh x (known x hx)
  rw [hy, Term.Lacks, Term.mem_vars_var]
  rintro rfl
  exact away offered

/-- What unifies terms that lack a variable leaves other terms without it. -/
theorem IsMgu.lacks {θ : Var → Term} {t : Term} (mgu : IsMgu a b θ) (ha : a.Lacks v) (hb : b.Lacks v)
    (ht : t.Lacks v) : (t.subst θ).Lacks v := by
  refine .subst fun x hx hv => ?_
  rcases mgu.vars hv with rfl | inA | inB
  · exact ht hx
  · exact ha inA
  · exact hb inB

section
variable {w : Workspace} {gd ab : Equation}

theorem criticalPairs_lacks (preserves : o.Preserves) (wf : s.WellFormed) (hgd : s.Has .full gd)
    (hab : s.Has .full ab) (away : ¬ w.supply.Offers v) :
    TermM.Ensures w s (criticalPairs o gd ab)
      (fun pairs w' s' => w.supply.Later w'.supply ∧ s'.OmitsAll v pairs)
      fun w' _ => w.supply.Later w'.supply := by
  obtain ⟨g, d, hgd, hg, hd⟩ := hgd
  obtain ⟨a, b, hab, ha, hb⟩ := hab
  refine (Superposition.criticalPairs_crossed preserves.answers wf hgd hab hg hd ha hb).mono ?_ fun _ _ _ _ h => h
  rintro pairs w' s' - - ⟨ρ, ρ', mid, ren, ren', crosses, -⟩
  refine ⟨ren.later.trans ren'.later, fun e he => ?_⟩
  obtain ⟨p, u, θ, at_, -, mgu, -, -, means⟩ := crosses e he
  have away' : ¬ mid.Offers v := fun offered => away (ren.later.offers v offered)
  have hg' : (g.subst ρ').Lacks v := ren'.lacks away' (by simp +contextual)
  have ha' : (a.subst ρ).Lacks v := ren.lacks away (by simp +contextual)
  have hb' : (b.subst ρ).Lacks v := ren.lacks away (by simp +contextual)
  have hu : u.Lacks v := fun hv => hg' (Term.mem_vars_of_subtermAt at_ hv)
  have onward : ∀ {t : Term}, t.Lacks v → (t.subst θ).Lacks v := mgu.lacks hu ha'
  refine ⟨_, _, means, onward (ren'.lacks away' (by simp +contextual)), onward fun hv => ?_⟩
  exact (Term.mem_vars_replaceAt hv).elim hg' hb'

theorem Superposer.superposeAll_lacks {sp : Superposer} {donors : List (Equation × Equation)}
    (preserves : o.Preserves) (wf : s.WellFormed)
    (has : ∀ d ∈ donors, s.Has .full d.1 ∧ s.Has .full d.2) (away : ¬ sp.workspace.supply.Offers v) :
    TermM.Ensures sp s (superposeAll o donors)
      (fun pairs sp' s' => sp.workspace.supply.Later sp'.workspace.supply ∧ s'.OmitsAll v pairs)
      fun sp' _ => sp.workspace.supply.Later sp'.workspace.supply := by
  let P (_ : Equation × Equation) (pairs : List Equation) (_ : Supply) (s' : Store) : Prop := s'.OmitsAll v pairs
  have lasts : Lasts P := fun _ _ _ _ _ _ omits _ wf wf' le => omits.mono wf wf' le
  refine (superposeAll_collects lasts (fun d hd {w s'} wf' le later => ?_) wf).mono ?_ fun _ _ _ _ h => h
  · have known := has d hd
    exact criticalPairs_lacks preserves wf' (known.1.mono wf wf' le) (known.2.mono wf wf' le)
      fun offered => away (later.offers v offered)
  · rintro out sp' s' - - collects
    refine ⟨collects.later, fun e he => ?_⟩
    obtain ⟨d, -, pairs, omits, mem⟩ := (collects.arise e he).resolve_left List.not_mem_nil
    exact omits e mem

end

namespace Reducer

variable {rd : Reducer} {st : ReduceState} {t : Ref}

/-- An outcome without the variable. -/
abbrev Finding (v : Var) (st : ReduceState) (s : Store) (x : ReduceM Ref) : Prop :=
  TermM.Ensures st s x (fun out st' s' => Keeps st st' ∧ ∃ u, s'.Denotes out u ∧ u.Lacks v) (Spent st)

theorem instantiate_lacks (wf : s.WellFormed) (he : s.Means e (l, r)) (hr : r.Lacks v) (hd : s.Denotes t a)
    (ha : a.Lacks v) (away : ¬ st.workspace.supply.Offers v)
    (found : Store.Refines s.Knows s.Agrees .empty (fun θ => l.subst θ = a) (some σ)) :
    Finding v st s (instantiate e σ t) := by
  refine (instantiate_spec wf he hd (hd.over_full wf) found).mono ?_ fun _ _ _ _ h => h
  rintro out st' s' - - ⟨kept, u, η, hu, -, origin, -⟩
  refine ⟨kept, u, hu, fun hv => ?_⟩
  rcases origin v hv with inA | inR | offered
  · exact ha inA
  · exact hr inR
  · exact away offered

theorem useRule_lacks (wf : s.WellFormed) (he : s.Means e (l, r)) (hr : r.Lacks v) (hd : s.Denotes t a)
    (ha : a.Lacks v) (away : ¬ st.workspace.supply.Offers v) : Finding v st s (useRule t e) :=
  useRule_ensures wf he hd (fun _ hd' _ => ⟨.refl st, a, hd', ha⟩)
    fun _ _ wf₁ he₁ hd₁ => instantiate_lacks wf₁ he₁ hr hd₁ ha away

theorem useEquation_lacks (preserves : o.Preserves) (wf : s.WellFormed) (he : s.Means e (l, r))
    (hr : r.Lacks v) (hd : s.Denotes t a) (ha : a.Lacks v) (away : ¬ st.workspace.supply.Offers v) :
    Finding v st s (useEquation o t e) := by
  refine useEquation_ensures (M := fun u st' => Keeps st st' ∧ u.Lacks v) preserves.answers wf he hd
    (hd.over_full wf) (fun _ hd' _ => ⟨.refl st, a, hd', ha⟩) ?_ ?_
  · intro σ s₁ wf₁ he₁ hd₁ found
    refine (instantiate_lacks wf₁ he₁ hr hd₁ ha away found).mono ?_ fun _ _ _ _ h => h
    rintro out st' s' wf' - ⟨kept, u, hu, lacks⟩
    exact ⟨u, hu, hu.over_full wf', kept, lacks⟩
  · rintro yes u out st' w s' ⟨kept, lacks⟩ - same - hd' hu
    refine ⟨kept.trans ⟨rfl, same ▸ .refl _⟩, ?_⟩
    cases yes with
    | true => exact ⟨u, hu, lacks⟩
    | false => exact ⟨a, hd', ha⟩

/-- One use after the other. -/
theorem foldlM_lacks {f : Ref → Equation → ReduceM Ref} (omits : s.OmitsAll v es)
    (step : ∀ e ∈ es, ∀ {st : ReduceState} {s' : Store} {t : Ref} {a l r : Term}, s'.WellFormed →
      s'.Means e (l, r) → r.Lacks v → s'.Denotes t a → a.Lacks v → ¬ st.workspace.supply.Offers v →
      Finding v st s' (f t e))
    (wf : s.WellFormed) (hd : s.Denotes t a) (ha : a.Lacks v) (away : ¬ st.workspace.supply.Offers v) :
    Finding v st s (es.foldlM f t) := by
  refine .foldlM (I := fun _ t st' s' => Keeps st st' ∧ ∃ u, s'.Denotes t u ∧ u.Lacks v) wf
    ⟨.refl st, a, hd, ha⟩ ?_
  rintro e he - q st₁ s₁ wf₁ le₁ ⟨kept, u, hu, lacks⟩
  obtain ⟨l, r, means, -, hr⟩ := omits e he
  refine (step e he wf₁ (Equation.means_mono means wf wf₁ le₁) hr hu lacks
    fun offered => away (kept.later.offers v offered)).mono ?_ fun _ _ _ _ h => kept.trans h
  rintro out st₂ s₂ - - ⟨kept₂, found⟩
  exact ⟨kept.trans kept₂, found⟩

theorem reduceTop_lacks (preserves : rd.order.Preserves) (rules : s.OmitsAll v rd.rules)
    (equations : s.OmitsAll v rd.equations) (wf : s.WellFormed) (hd : s.Denotes t a) (ha : a.Lacks v)
    (away : ¬ st.workspace.supply.Offers v) : Finding v st s (rd.reduceTop t) := by
  rw [reduceTop]
  refine (foldlM_lacks rules (fun e _ => useRule_lacks) wf hd ha away).bind ?_
  rintro q st₁ s₁ wf₁ le₁ ⟨kept, u, hu, lacks⟩
  have both : s₁.OmitsAll v (rd.equations.flatMap fun e => [e, e.reversed]) := by
    intro e he
    obtain ⟨d, hd, side⟩ := List.mem_flatMap.1 he
    have omits := equations.mono wf wf₁ le₁ d hd
    rcases List.mem_pair.1 side with rfl | rfl
    · exact omits
    · exact Store.Omits.reversed omits
  refine (foldlM_lacks both (fun e _ => useEquation_lacks preserves) wf₁ hu lacks
    fun offered => away (kept.later.offers v offered)).mono ?_ fun _ _ _ _ h => kept.trans h
  rintro out st₂ s₂ - - ⟨kept₂, found⟩
  exact ⟨kept.trans kept₂, found⟩

/-- Terms without the variable are walked if it cannot be drawn. -/
theorem walk_lacks (preserves : rd.order.Preserves) (rules : s.OmitsAll v rd.rules)
    (equations : s.OmitsAll v rd.equations) (wf : s.WellFormed) :
    rd.Walk s (fun supply a => a.Lacks v ∧ ¬ supply.Offers v) (fun _ u => u.Lacks v) fun _ b => b.Lacks v where
  top := fun wf' le hd ha =>
    reduceTop_lacks preserves (rules.mono wf wf' le) (equations.mono wf wf' le) wf' hd ha.1 ha.2
  later := fun ha later => ⟨ha.1, fun offered => ha.2 (later.offers v offered)⟩
  arg := fun ha a mem => ⟨Term.lacks_app.1 ha.1 a mem, ha.2⟩
  args := by
    intro supply f as bs ha passed
    refine ⟨Term.lacks_app.2 fun b hb => ?_, ha.2⟩
    obtain ⟨a, -, lacks⟩ := Store.exists_of_forall₂_right passed hb
    exact lacks
  passed := fun ha lacks => ⟨lacks, ha.2⟩
  var := fun _ lacks => lacks
  app := fun _ _ lacks => lacks

/-- What normalizing comes to, with outcomes of passes noted that lack the variable. -/
theorem normalize_lacks (preserves : rd.order.Preserves) (rules : s.OmitsAll v rd.rules)
    (equations : s.OmitsAll v rd.equations) (wf : s.WellFormed) (noted : Noted (fun _ b => b.Lacks v) st s)
    (ht : s.Lacks v t) (away : ¬ st.workspace.supply.Offers v) :
    TermM.Ensures st s (rd.normalize t) (fun out st' s' =>
      Remains (fun _ b => b.Lacks v) st st' s' ∧ s'.Lacks v out) (Remains (fun _ b => b.Lacks v) st) := by
  obtain ⟨a, hd, ha⟩ := ht
  refine ((walk_lacks preserves rules equations wf).normalize wf noted hd ⟨ha, away⟩).mono ?_
    fun _ _ _ _ h => h
  rintro out st' s' - - ⟨remains, b, hb, -, lacks⟩
  exact ⟨remains, b, hb, lacks⟩

theorem normalizeAll_lacks {ts : List Ref} (preserves : rd.order.Preserves) (rules : s.OmitsAll v rd.rules)
    (equations : s.OmitsAll v rd.equations) (wf : s.WellFormed) (noted : Noted (fun _ b => b.Lacks v) st s)
    (hts : ∀ t ∈ ts, s.Lacks v t) (away : ¬ st.workspace.supply.Offers v) :
    TermM.Ensures st s (rd.normalizeAll ts) (fun outs st' s' =>
      Remains (fun _ b => b.Lacks v) st st' s' ∧ ∀ out ∈ outs, s'.Lacks v out)
      (Remains (fun _ b => b.Lacks v) st) := by
  induction ts generalizing st s with
  | nil => exact .pure wf ⟨⟨noted, .refl _⟩, nofun⟩
  | cons t ts ih =>
      rw [normalizeAll]
      refine (normalize_lacks preserves rules equations wf noted (hts t List.mem_cons_self) away).bind ?_
      rintro u st₁ s₁ wf₁ le₁ ⟨⟨noted₁, later₁⟩, hu⟩
      have rest := ih (rules.mono wf wf₁ le₁) (equations.mono wf wf₁ le₁) wf₁ noted₁
        (fun t ht => (hts t (List.mem_cons_of_mem _ ht)).mono wf wf₁ le₁)
        fun offered => away (later₁.offers v offered)
      refine (rest.mono (fun _ _ _ _ _ h => h) fun _ _ _ _ h => h.after later₁).bind ?_
      rintro us st₂ s₂ wf₂ le₂ ⟨remains, hus⟩
      exact .pure wf₂ ⟨remains.after later₁, List.forall_mem_cons.2 ⟨hu.mono wf₁ wf₂ le₂, hus⟩⟩

end Reducer
end OrderedCompletion
