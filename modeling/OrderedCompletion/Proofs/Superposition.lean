import OrderedCompletion.Proofs.Position
import OrderedCompletion.Proofs.Supply
import OrderedCompletion.Proofs.System
import OrderedCompletion.Proofs.Unification
import OrderedCompletion.Superposition

/-! Critical pairs follow from their donors, and connect every overlap that goes down both ways. -/

namespace OrderedCompletion

variable {G : Gauge} {s s' : Store} {o : Order} {w : Workspace} {gd ab : Equation}
variable {g d a b u : Term} {p : Position} {θ : Var → Term}

/-- The subterm of `g` at the place of the overlap is an application and unified with `a`. -/
structure Overlap.Unifies (here : Overlap) (s : Store) (g a : Term) (θ : Var → Term) : Prop where
  binds : s.Binds here.subst θ
  mgu : ∃ u, g.subtermAt here.position = some u ∧ u.IsApp ∧ IsMgu u a θ

theorem Overlap.Unifies.mono {here : Overlap} (h : here.Unifies s g a θ) (wf : s.WellFormed)
    (wf' : s'.WellFormed) (le : s ≤ s') : here.Unifies s' g a θ :=
  ⟨h.binds.mono wf wf' le, h.mgu⟩

theorem Store.overlapsAt_spec {r : Ref} {places : List (Position × Ref)} (wf : s.WellFormed)
    (ha : s.Denotes r a) (known : ∀ place ∈ places, ∃ u, g.subtermAt place.1 = some u ∧ u.IsApp ∧ s.Denotes place.2 u) :
    s.Ensures (overlapsAt r places) fun found s' =>
      (∀ here ∈ found, ∃ θ, here.Unifies s' g a θ) ∧
      ∀ place ∈ places, ∀ u, g.subtermAt place.1 = some u → ∀ τ, u.subst τ = a.subst τ →
        ∃ here ∈ found, here.position = place.1 := by
  induction places generalizing s with
  | nil => exact .pure wf ⟨fun here h => (by cases h), fun place h => by cases h⟩
  | cons place places ih =>
      obtain ⟨p, q⟩ := place
      obtain ⟨u, at_, app, hu⟩ := known (p, q) List.mem_cons_self
      rw [overlapsAt]
      refine (unify?_spec wf hu ha).bind fun out s₁ wf₁ le₁ hout => ?_
      have rest := ih wf₁ (ha.mono wf wf₁ le₁) fun place hplace => by
        obtain ⟨u', at', app', hu'⟩ := known place (List.mem_cons_of_mem _ hplace)
        exact ⟨u', at', app', hu'.mono wf wf₁ le₁⟩
      cases out with
      | none =>
          refine rest.mono fun found s₂ _ _ h => ⟨h.1, fun place hplace u' at' τ eq => ?_⟩
          rcases List.mem_cons.1 hplace with rfl | hplace
          · rw [at_, Option.some.injEq] at at'
            exact absurd (at' ▸ eq) (hout τ)
          · exact h.2 place hplace u' at' τ eq
      | some σ =>
          obtain ⟨θ, hθ, mgu⟩ := hout
          refine rest.bind fun found s₂ wf₂ le₂ h => .pure wf₂ ⟨fun here hhere => ?_, ?_⟩
          · rcases List.mem_cons.1 hhere with rfl | hhere
            · exact ⟨θ, hθ.mono wf₁ wf₂ le₂, u, at_, app, mgu⟩
            · exact h.1 here hhere
          · intro place hplace u' at' τ eq
            rcases List.mem_cons.1 hplace with rfl | hplace
            · exact ⟨_, List.mem_cons_self, rfl⟩
            · obtain ⟨here, hhere, same⟩ := h.2 place hplace u' at' τ eq
              exact ⟨here, List.mem_cons_of_mem _ hhere, same⟩

theorem Store.overlaps_spec {q r : Ref} (wf : s.WellFormed) (hg : s.Denotes q g) (ha : s.Denotes r a) :
    s.Ensures (overlaps q r) fun found s' =>
      (∀ here ∈ found, ∃ θ, here.Unifies s' g a θ) ∧
      ∀ p u τ, g.subtermAt p = some u → u.IsApp → u.subst τ = a.subst τ →
        ∃ here ∈ found, here.position = p := by
  rw [overlaps]
  refine (Ensures.get wf).bind ?_
  rintro _ s' - - ⟨rfl, rfl⟩
  refine (overlapsAt_spec (g := g) wf ha fun place hplace => ?_).mono fun found s₁ _ _ h => ⟨h.1, ?_⟩
  · exact (mem_appPositions wf hg).1 hplace
  · intro p u τ at_ app eq
    obtain ⟨q, hq⟩ := hg.exists_subtermAt wf at_
    exact h.2 (p, q) ((mem_appPositions wf hg).2 ⟨u, at_, app, hq⟩) u at_ τ eq

namespace Superposition

/-- No instance of the equation goes down. -/
def Blocked (G : Gauge) (l r : Term) : Prop :=
  ∀ δ : Var → Term, (∀ v, (δ v).Over G.sig) → G.strict → ¬ G.gt (l.subst δ) (r.subst δ)

theorem blocked_refl (ha : a.Over G.sig) : Blocked G a a :=
  fun _ hδ strict => G.irrefl strict (ha.subst fun v _ => hδ v)

theorem blocked_of_gt (ha : a.Over G.sig) (hb : b.Over G.sig) (up : G.gt b a) : Blocked G a b :=
  fun _ hδ strict => Gauge.not_gt_of_gt strict hb ha hδ up

/-- The pair of an overlap is among the given ones, unless one of the two ways never goes down. -/
def Yields (G : Gauge) (s : Store) (pairs : List Equation) (gd ab : Term × Term) (p : Position)
    (θ : Var → Term) : Prop :=
  (∃ pair ∈ pairs, s.Means pair (gd.2.subst θ, (Term.replaceAt ab.2 gd.1 p).subst θ)) ∨
    Blocked G (gd.1.subst θ) (gd.2.subst θ) ∨ Blocked G (ab.1.subst θ) (ab.2.subst θ)

/-- The sides of an equation are stored, and it follows from a theory. -/
def Follows (G : Gauge) (s : Store) (T : Theory) (e : Equation) : Prop :=
  ∃ x y, s.Means e (x, y) ∧ x.Over G.sig ∧ y.Over G.sig ∧ Derives T x y

theorem Follows.mono {T : Theory} {e : Equation} (h : Follows G s T e) (wf : s.WellFormed)
    (wf' : s'.WellFormed) (le : s ≤ s') : Follows G s' T e := by
  obtain ⟨x, y, means, rest⟩ := h
  exact ⟨x, y, Equation.means_mono means wf wf' le, rest⟩

/-- The two ways lead to the sides of a pair from an instance of `gd` in which one of `ab` stands. -/
def Splits (gd ab pair : Term × Term) : Prop :=
  ∃ (p : Position) (ρ τ : Var → Term), (gd.1.subst ρ).subtermAt p = some (ab.1.subst τ) ∧
    pair = (gd.2.subst ρ, Term.replaceAt (ab.2.subst τ) (gd.1.subst ρ) p)

/-- The sides of an equation are stored and are those of a pair of `ab` and `gd`. -/
def Arises (G : Gauge) (s : Store) (gd ab : Term × Term) (e : Equation) : Prop :=
  ∃ x y, s.Means e (x, y) ∧ x.Over G.sig ∧ y.Over G.sig ∧ Splits gd ab (x, y)

theorem Arises.mono {gd ab : Term × Term} {e : Equation} (h : Arises G s gd ab e) (wf : s.WellFormed)
    (wf' : s'.WellFormed) (le : s ≤ s') : Arises G s' gd ab e := by
  obtain ⟨x, y, means, rest⟩ := h
  exact ⟨x, y, Equation.means_mono means wf wf' le, rest⟩

/-- A pair of instances of two equations is one of the equations. -/
theorem Splits.of_subst {pair : Term × Term} {ρ τ : Var → Term}
    (h : Splits (g.subst ρ, d.subst ρ) (a.subst τ, b.subst τ) pair) : Splits (g, d) (a, b) pair := by
  obtain ⟨p, ρ', τ', at_, same⟩ := h
  simp only [Term.subst_subst] at at_ same
  exact ⟨p, _, _, at_, same⟩

/-- Both ways of an overlap start from the same term. -/
theorem Splits.derives {T : Theory} {x y : Term} (h : Splits (g, d) (a, b) (x, y)) (hg : (g, d) ∈ T)
    (ha : (a, b) ∈ T) : Derives T x y := by
  obtain ⟨p, ρ, τ, at_, same⟩ := h
  obtain ⟨rfl, rfl⟩ := Prod.mk.inj same
  have down := (Derives.equation τ ha).replaceAt (w := g.subst ρ) (p := p)
  rw [Term.replaceAt_self at_] at down
  exact (Derives.equation ρ hg).symm.trans down

/-- What arises from two equations follows from what these follow from. -/
theorem Arises.follows {T : Theory} {e : Equation} (h : Arises G s (g, d) (a, b) e)
    (outer : Derives T g d) (inner : Derives T a b) : Follows G s T e := by
  obtain ⟨x, y, means, hx, hy, splits⟩ := h
  refine ⟨x, y, means, hx, hy, (splits.derives (T := {(g, d), (a, b)}) (by simp) (by simp)).cut ?_⟩
  rintro l r (same | same)
  · obtain ⟨rfl, rfl⟩ := Prod.mk.inj same
    exact outer
  · obtain ⟨rfl, rfl⟩ := Prod.mk.inj same
    exact inner

section
variable {sig : Signature} {J : Bool → Term → Term → Prop} {found pairs : List Equation} {heres : List Overlap}

/-- An instance of the equation is trivial or, by an answer of the order, goes up. -/
def Idle (J : Bool → Term → Term → Prop) (d : Term × Term) (θ : Var → Term) : Prop :=
  d.1.subst θ = d.2.subst θ ∨ J true (d.2.subst θ) (d.1.subst θ)

/-- The instance is not trivial, and the answer is that it does not go up. -/
def Live (J : Bool → Term → Term → Prop) (d : Term × Term) (θ : Var → Term) : Prop :=
  d.1.subst θ ≠ d.2.subst θ ∧ J false (d.2.subst θ) (d.1.subst θ)

/-- What becomes of an overlap. -/
def Outcome (J : Bool → Term → Term → Prop) (s : Store) (gd ab : Term × Term) (p : Position)
    (θ : Var → Term) : Option Equation → Prop
  | none => Idle J gd θ ∨ Idle J ab θ
  | some pair => Live J gd θ ∧ Live J ab θ ∧
      s.Means pair (gd.2.subst θ, (Term.replaceAt ab.2 gd.1 p).subst θ)

theorem Outcome.mono {gd ab : Term × Term} {out : Option Equation} (h : Outcome J s gd ab p θ out)
    (wf : s.WellFormed) (wf' : s'.WellFormed) (le : s ≤ s') : Outcome J s' gd ab p θ out := by
  cases out with
  | none => exact h
  | some pair => exact ⟨h.1, h.2.1, Equation.means_mono h.2.2 wf wf' le⟩

theorem pairAt_outcome {here : Overlap} {F : Workspace → Store → Prop} (answers : o.Answers sig J) (wf : s.WellFormed)
    (hgd : s.Means gd (g, d)) (hab : s.Means ab (a, b)) (hg : g.Over sig) (hd : d.Over sig)
    (ha : a.Over sig) (hb : b.Over sig) (unifies : here.Unifies s g a θ) :
    TermM.Ensures w s (pairAt o gd ab here)
      (fun out w' s' => w'.supply = w.supply ∧ Outcome J s' (g, d) (a, b) here.position θ out) F := by
  obtain ⟨binds, u, at_, -, mgu⟩ := unifies
  have hθ := mgu.inSig sig (hg.subtermAt at_) ha
  have hgθ := hg.subst fun v _ => hθ v
  have hdθ := hd.subst fun v _ => hθ v
  have haθ := ha.subst fun v _ => hθ v
  have hbθ := hb.subst fun v _ => hθ v
  -- the four reasons to leave the pair out
  have skip : ∀ {w' : Workspace} {s' : Store}, s'.WellFormed → w'.supply = w.supply →
      Idle J (g, d) θ ∨ Idle J (a, b) θ →
      TermM.Ensures w' s' (pure none : TermM Workspace OverlapError (Option Equation))
        (fun out w' s' => w'.supply = w.supply ∧ Outcome J s' (g, d) (a, b) here.position θ out) F :=
    fun wf' same idle => .pure wf' ⟨same, idle⟩
  rw [pairAt]
  refine .bindLift (Equation.apply_spec wf binds hgd) fun gd' s₁ wf₁ le₁ hgd' => ?_
  have trivialG := Equation.isTrivial_iff hgd' wf₁
  split
  · rename_i yes
    exact skip wf₁ rfl (.inl (.inl (trivialG.1 yes)))
  rename_i differ
  refine ((Workspace.ask_answers answers wf₁ hgd'.2 hgd'.1 hdθ hgθ).bind fun up w₂ s₂ wf₂ le₂ hup => ?_)
  split
  · rename_i yes
    exact skip wf₂ hup.1 (.inl (.inr (yes ▸ hup.2)))
  rename_i down
  have le₁₂ := le₁.trans le₂
  refine .bindLift (Equation.apply_spec wf₂ (binds.mono wf wf₂ le₁₂) (Equation.means_mono hab wf wf₂ le₁₂))
    fun ab' s₃ wf₃ le₃ hab' => ?_
  have trivialA := Equation.isTrivial_iff hab' wf₃
  split
  · rename_i yes
    exact skip wf₃ hup.1 (.inr (.inl (trivialA.1 yes)))
  rename_i differ'
  refine ((Workspace.ask_answers answers wf₃ hab'.2 hab'.1 hbθ haθ).bind fun up' w₄ s₄ wf₄ le₄ hup' => ?_)
  split
  · rename_i yes
    exact skip wf₄ (hup'.1.trans hup.1) (.inr (.inr (yes ▸ hup'.2)))
  rename_i down'
  have le₁₄ := (le₁₂.trans le₃).trans le₄
  refine .bindLift (Store.replaceAt_spec wf₄ (hgd.1.mono wf wf₄ le₁₄) (hab.2.mono wf wf₄ le₁₄) at_) ?_
  rintro _ s₅ wf₅ le₅ ⟨q, rfl, hq⟩
  refine .bindLift (Store.apply_spec wf₅ (binds.mono wf wf₅ (le₁₄.trans le₅)) hq)
    fun out s₆ wf₆ le₆ hout => .pure wf₆ ⟨hup'.1.trans hup.1, ?_, ?_, ?_, hout⟩
  · exact ⟨fun same => differ (trivialG.2 same), eq_false_of_ne_true down ▸ hup.2⟩
  · exact ⟨fun same => differ' (trivialA.2 same), eq_false_of_ne_true down' ▸ hup'.2⟩
  · exact hgd'.2.mono wf₁ wf₆ (((le₂.trans le₃).trans le₄).trans (le₅.trans le₆))

theorem mem_addNew {es : List Equation} {e e' : Equation} : e' ∈ addNew es e ↔ e' ∈ es ∨ e' = e := by
  rw [addNew]
  split
  · rename_i old
    exact ⟨.inl, fun h => h.elim id fun same => same ▸ old⟩
  · rw [List.mem_append, List.mem_singleton]

theorem mem_foldl_addNew {es fs : List Equation} {e : Equation} :
    e ∈ fs.foldl addNew es ↔ e ∈ es ∨ e ∈ fs := by
  induction fs generalizing es with
  | nil => simp
  | cons f fs ih => rw [List.foldl_cons, ih, mem_addNew, List.mem_cons, or_assoc]

/-- The pair comes from an overlap of two equations. -/
def Crosses (J : Bool → Term → Term → Prop) (s : Store) (gd ab : Term × Term) (pair : Equation) : Prop :=
  ∃ p u θ, gd.1.subtermAt p = some u ∧ u.IsApp ∧ IsMgu u ab.1 θ ∧ Outcome J s gd ab p θ (some pair)

theorem Crosses.mono {gd ab : Term × Term} {pair : Equation} (h : Crosses J s gd ab pair) (wf : s.WellFormed)
    (wf' : s'.WellFormed) (le : s ≤ s') : Crosses J s' gd ab pair := by
  obtain ⟨p, u, θ, at_, app, mgu, outcome⟩ := h
  exact ⟨p, u, θ, at_, app, mgu, outcome.mono wf wf' le⟩

theorem pairsAt_outcome {F : Workspace → Store → Prop} (answers : o.Answers sig J) (wf : s.WellFormed)
    (hgd : s.Means gd (g, d)) (hab : s.Means ab (a, b)) (hg : g.Over sig) (hd : d.Over sig)
    (ha : a.Over sig) (hb : b.Over sig) (unifies : ∀ here ∈ heres, ∃ θ, here.Unifies s g a θ)
    (old : ∀ e ∈ found, Crosses J s (g, d) (a, b) e) :
    TermM.Ensures w s (pairsAt o gd ab found heres)
      (fun pairs w' s' => w'.supply = w.supply ∧ found ⊆ pairs ∧
        (∀ e ∈ pairs, Crosses J s' (g, d) (a, b) e) ∧
        ∀ here ∈ heres, ∃ θ out, here.Unifies s' g a θ ∧
          Outcome J s' (g, d) (a, b) here.position θ out ∧ out.toList ⊆ pairs) F := by
  induction heres generalizing w s found with
  | nil => exact .pure wf ⟨rfl, fun _ h => h, old, fun here h => by cases h⟩
  | cons here heres ih =>
      obtain ⟨θ, hθ⟩ := unifies here List.mem_cons_self
      rw [pairsAt]
      refine ((pairAt_outcome answers wf hgd hab hg hd ha hb hθ).bind ?_)
      rintro out w₁ s₁ wf₁ le₁ ⟨same, outcome⟩
      have rest : ∀ {found' : List Equation}, found ⊆ found' → out.toList ⊆ found' →
          (∀ e ∈ found', Crosses J s₁ (g, d) (a, b) e) →
          TermM.Ensures w₁ s₁ (pairsAt o gd ab found' heres)
            (fun pairs w' s' => w'.supply = w.supply ∧ found ⊆ pairs ∧
              (∀ e ∈ pairs, Crosses J s' (g, d) (a, b) e) ∧
              ∀ here' ∈ here :: heres, ∃ θ out, here'.Unifies s' g a θ ∧
                Outcome J s' (g, d) (a, b) here'.position θ out ∧ out.toList ⊆ pairs) F := by
        intro found' sub sub' old'
        have others := ih (w := w₁) wf₁ (Equation.means_mono hgd wf wf₁ le₁)
          (Equation.means_mono hab wf wf₁ le₁) (fun here' h => by
            obtain ⟨η, hη⟩ := unifies here' (List.mem_cons_of_mem _ h)
            exact ⟨η, hη.mono wf wf₁ le₁⟩) old'
        refine others.mono ?_ fun _ _ _ _ h => h
        rintro pairs w₂ s₂ wf₂ le₂ ⟨same₂, sub₂, crosses₂, all₂⟩
        refine ⟨same₂.trans same, fun e he => sub₂ (sub he), crosses₂, fun here' h => ?_⟩
        rcases List.mem_cons.1 h with rfl | h
        · exact ⟨θ, out, hθ.mono wf wf₂ (le₁.trans le₂), outcome.mono wf₁ wf₂ le₂,
            fun e he => sub₂ (sub' he)⟩
        · exact all₂ here' h
      have old₁ : ∀ e ∈ found, Crosses J s₁ (g, d) (a, b) e := fun e he => (old e he).mono wf wf₁ le₁
      cases out with
      | none => exact rest (fun _ h => h) (List.nil_subset _) old₁
      | some pair =>
          refine rest (fun e he => mem_addNew.2 (.inl he)) ?_ fun e he => ?_
          · intro e he
            exact mem_addNew.2 (.inr (List.mem_singleton.1 he))
          · rcases mem_addNew.1 he with he | rfl
            · exact old₁ e he
            · obtain ⟨-, u, at_, app, mgu⟩ := hθ
              exact ⟨here.position, u, θ, at_, app, mgu, outcome⟩

/-- The pairs are those of all overlaps of two equations. -/
structure Crossed (J : Bool → Term → Term → Prop) (s : Store) (gd ab : Term × Term) (pairs : List Equation) :
    Prop where
  crosses : ∀ e ∈ pairs, Crosses J s gd ab e
  all : ∀ p u τ, gd.1.subtermAt p = some u → u.IsApp → u.subst τ = ab.1.subst τ →
    ∃ θ out, IsMgu u ab.1 θ ∧ Outcome J s gd ab p θ out ∧ out.toList ⊆ pairs

/-- The equations are renamed first, one after the other. -/
theorem criticalPairs_crossed (answers : o.Answers sig J) (wf : s.WellFormed) (hgd : s.Means gd (g, d))
    (hab : s.Means ab (a, b)) (hg : g.Over sig) (hd : d.Over sig) (ha : a.Over sig) (hb : b.Over sig) :
    TermM.Ensures w s (criticalPairs o gd ab)
      (fun pairs w' s' => ∃ ρ ρ' mid, Renames w.supply mid (sortVars (a.vars ++ b.vars)) ρ ∧
        Renames mid w'.supply (sortVars (g.vars ++ d.vars)) ρ' ∧
        Crossed J s' (g.subst ρ', d.subst ρ') (a.subst ρ, b.subst ρ) pairs)
      fun w' _ => w.supply.Later w'.supply := by
  rw [criticalPairs]
  refine ((Workspace.renameApart_spec wf hab).adapt.bind ?_)
  rintro ab' w₁ s₁ wf₁ le₁ ⟨ρ, hab', ren⟩
  refine (((Workspace.renameApart_spec wf₁ (Equation.means_mono hgd wf wf₁ le₁)).adapt.mono
    (fun _ _ _ _ _ h => h) fun _ _ _ _ h => ren.later.trans h).bind ?_)
  rintro gd' w₂ s₂ wf₂ le₂ ⟨ρ', hgd', ren'⟩
  have hab₂ := Equation.means_mono hab' wf₁ wf₂ le₂
  refine .bindLift (Store.overlaps_spec wf₂ hgd'.1 hab₂.1) ?_
  rintro heres s₃ wf₃ le₃ ⟨unifies, all⟩
  refine ((pairsAt_outcome answers wf₃ (Equation.means_mono hgd' wf₂ wf₃ le₃)
    (Equation.means_mono hab₂ wf₂ wf₃ le₃) (ren'.over hg (by simp +contextual))
    (ren'.over hd (by simp +contextual)) (ren.over ha (by simp +contextual))
    (ren.over hb (by simp +contextual)) unifies (by simp)).mono ?_ fun _ _ _ _ h => h)
  rintro pairs w₄ s₄ wf₄ le₄ ⟨same, -, crosses, outcomes⟩
  refine ⟨ρ, ρ', _, ren, same ▸ ren', crosses, fun p u τ at_ app eq => ?_⟩
  obtain ⟨here, hhere, rfl⟩ := all p u τ at_ app eq
  obtain ⟨θ, out, ⟨-, u', at', -, mgu⟩, outcome⟩ := outcomes here hhere
  obtain rfl := Option.some.inj (at_.symm.trans at')
  exact ⟨θ, out, mgu, outcome⟩

/-- Nothing but a lack of fresh variables makes superposition fail. -/
theorem criticalPairs_provided (answers : o.Answers sig J) (wf : s.WellFormed) (hgd : s.Means gd (g, d))
    (hab : s.Means ab (a, b)) (hg : g.Over sig) (hd : d.Over sig) (ha : a.Over sig) (hb : b.Over sig)
    (enough : w.supply.Provides
      ((sortVars (a.vars ++ b.vars)).length + (sortVars (g.vars ++ d.vars)).length)) :
    TermM.Ensures w s (criticalPairs o gd ab) (fun _ _ _ => True) fun _ _ => False := by
  rw [criticalPairs]
  have first : TermM.Ensures w s _ _ _ :=
    (Workspace.renameApart_provided wf hab enough).and (Workspace.renameApart_spec wf hab)
  refine ((first.mono (fun _ _ _ _ _ h => h) fun _ _ _ _ h => h.1).adapt.bind ?_)
  rintro ab' w₁ s₁ wf₁ le₁ ⟨enough', ρ, hab', ren⟩
  have hgd₁ := Equation.means_mono hgd wf wf₁ le₁
  have second : TermM.Ensures w₁ s₁ _ _ _ :=
    (Workspace.renameApart_provided (n := 0) wf₁ hgd₁ enough').and (Workspace.renameApart_spec wf₁ hgd₁)
  refine ((second.mono (fun _ _ _ _ _ h => h) fun _ _ _ _ h => h.1).adapt.bind ?_)
  rintro gd' w₂ s₂ wf₂ le₂ ⟨-, ρ', hgd', ren'⟩
  have hab₂ := Equation.means_mono hab' wf₁ wf₂ le₂
  refine .bindLift (Store.overlaps_spec wf₂ hgd'.1 hab₂.1) ?_
  rintro heres s₃ wf₃ le₃ ⟨unifies, -⟩
  exact ((pairsAt_outcome answers wf₃ (Equation.means_mono hgd' wf₂ wf₃ le₃)
    (Equation.means_mono hab₂ wf₂ wf₃ le₃) (ren'.over hg (by simp +contextual))
    (ren'.over hd (by simp +contextual)) (ren.over ha (by simp +contextual))
    (ren.over hb (by simp +contextual)) unifies (by simp)).mono (fun _ _ _ _ _ _ => trivial)
    fun _ _ _ _ h => h)

end

/-- What becomes of an overlap by a gauge. -/
abbrev Judged (G : Gauge) (yes : Bool) (a b : Term) : Prop :=
  (yes = true → G.gt a b) ∧ (G.strict → yes = false → ¬ G.gt a b)

theorem Outcome.arises {pair : Equation} {J : Bool → Term → Term → Prop}
    (h : Outcome J s (g, d) (a, b) p θ (some pair)) (at_ : g.subtermAt p = some u) (mgu : IsMgu u a θ)
    (hg : g.Over G.sig) (hd : d.Over G.sig) (ha : a.Over G.sig) (hb : b.Over G.sig) :
    Arises G s (g, d) (a, b) pair := by
  have hθ := mgu.inSig G.sig (hg.subtermAt at_) ha
  refine ⟨_, _, h.2.2, hd.subst fun v _ => hθ v, (hg.replaceAt hb).subst fun v _ => hθ v, p, θ, θ, ?_, ?_⟩
  · rw [Term.subtermAt_subst at_, mgu.unifies]
  · rw [Term.replaceAt_subst at_]

theorem Idle.blocked (h : Idle (Judged G) (a, b) θ) (ha : (a.subst θ).Over G.sig)
    (hb : (b.subst θ).Over G.sig) : Blocked G (a.subst θ) (b.subst θ) := by
  rcases h with same | ⟨up, -⟩
  · exact same ▸ blocked_refl ha
  · exact blocked_of_gt ha hb (up rfl)

theorem Outcome.yields {out : Option Equation} (h : Outcome (Judged G) s (g, d) (a, b) p θ out)
    (at_ : g.subtermAt p = some u) (mgu : IsMgu u a θ) (hg : g.Over G.sig) (hd : d.Over G.sig)
    (ha : a.Over G.sig) (hb : b.Over G.sig) : Yields G s out.toList (g, d) (a, b) p θ := by
  have hθ : ∀ {t : Term}, t.Over G.sig → (t.subst θ).Over G.sig := fun ht =>
    ht.subst fun v _ => mgu.inSig G.sig (hg.subtermAt at_) ha v
  cases out with
  | none => exact .inr (h.imp (·.blocked (hθ hg) (hθ hd)) (·.blocked (hθ ha) (hθ hb)))
  | some pair => exact .inl ⟨pair, List.mem_singleton_self pair, h.2.2⟩

/-- An overlap that goes down both ways is an instance of a pair that was found. -/
theorem Yields.connect {pairs : List Equation} {T : Theory} {κ : Var → Term} (strict : G.strict)
    (yields : Yields G s pairs (g, d) (a, b) p θ) (cover : G.Covers (s.theory pairs) T)
    (hg : g.Over G.sig) (hd : d.Over G.sig) (hb : b.Over G.sig) (hκ : ∀ v, (κ v).Over G.sig)
    (at_ : g.subtermAt p = some u) (mgu : IsMgu u a θ) (same : u.subst κ = a.subst κ)
    (down : G.gt (g.subst κ) (d.subst κ)) (down' : G.gt (a.subst κ) (b.subst κ)) :
    Conv T (G.Below (g.subst κ)) (d.subst κ) (Term.replaceAt (b.subst κ) (g.subst κ) p) := by
  have onward : ∀ t : Term, (t.subst θ).subst κ = t.subst κ := by
    intro t
    rw [Term.subst_subst]
    exact Term.subst_congr fun v _ => mgu.general κ same v
  rcases yields with ⟨pair, hpair, means⟩ | blocked | blocked
  · have hgκ := hg.subst fun v _ => hκ v
    have left : G.Below (g.subst κ) (d.subst κ) := ⟨hd.subst fun v _ => hκ v, down⟩
    have right : G.Below (g.subst κ) (Term.replaceAt (b.subst κ) (g.subst κ) p) := by
      have hbκ := hb.subst fun v _ => hκ v
      exact ⟨hgκ.replaceAt hbκ, Gauge.gt_replaceAt hgκ hbκ (Term.subtermAt_subst at_) (same ▸ down')⟩
    have bridge := cover _ _ (Store.mem_theory hpair means) κ hκ
    rw [onward, onward, Term.replaceAt_subst at_] at bridge
    refine bridge.mono (fun z hz => ?_) subset_rfl
    exact hz.elim (left.under hgκ) (right.under hgκ)
  · exact absurd (by simpa only [onward] using down) (blocked κ hκ strict)
  · exact absurd (by simpa only [onward] using down') (blocked κ hκ strict)

end Superposition

/-- What the critical pairs of two donors come to: they arise from the donors and, if the answers can be
relied on, they are all that is missing to connect the overlaps. -/
structure CriticalPairs (G : Gauge) (supply supply' : Supply) (s : Store) (pairs : List Equation)
    (gd ab : Term × Term) : Prop where
  later : supply.Later supply'
  arises : ∀ e ∈ pairs, Superposition.Arises G s gd ab e
  connects : G.strict → supply.Distinct → ∀ T, G.Covers (s.theory pairs) T → G.Connects T gd ab

open Superposition in
theorem criticalPairs_spec (obeys : o.Obeys G) (wf : s.WellFormed) (hgd : s.Means gd (g, d))
    (hab : s.Means ab (a, b)) (hg : g.Over G.sig) (hd : d.Over G.sig) (ha : a.Over G.sig)
    (hb : b.Over G.sig) :
    TermM.Ensures w s (criticalPairs o gd ab)
      (fun pairs w' s' => CriticalPairs G w.supply w'.supply s' pairs (g, d) (a, b))
      fun w' _ => w.supply.Later w'.supply := by
  have answers : o.Answers G.sig (Judged G) := obeys
  refine (criticalPairs_crossed answers wf hgd hab hg hd ha hb).mono ?_ fun _ _ _ _ h => h
  rintro pairs w' s' - - ⟨ρ₁, ρ₂, mid, ren₁, ren₂, crosses, all⟩
  have hg₂ : (g.subst ρ₂).Over G.sig := ren₂.over hg (by simp +contextual)
  have hd₂ : (d.subst ρ₂).Over G.sig := ren₂.over hd (by simp +contextual)
  have ha₁ : (a.subst ρ₁).Over G.sig := ren₁.over ha (by simp +contextual)
  have hb₁ : (b.subst ρ₁).Over G.sig := ren₁.over hb (by simp +contextual)
  refine ⟨ren₁.later.trans ren₂.later, fun e he => ?_, fun strict distinct T cover => ?_⟩
  · obtain ⟨p, u, θ, at_, -, mgu, outcome⟩ := crosses e he
    obtain ⟨x, y, means, hx, hy, splits⟩ := outcome.arises at_ mgu hg₂ hd₂ ha₁ hb₁
    exact ⟨x, y, means, hx, hy, splits.of_subst⟩
  · intro p u ρ τ hρ hτ at_ app eq down down'
    obtain ⟨κ, onAb, onGd, inSig⟩ := ren₁.exists_common ren₂ distinct τ ρ
    have hκ := inSig G.sig hτ hρ
    have left : ∀ t : Term, (∀ v ∈ t.vars, v ∈ g.vars ∨ v ∈ d.vars) →
        (t.subst ρ₂).subst κ = t.subst ρ := fun t ht => by
      rw [Term.subst_subst]
      exact Term.subst_congr fun v hv => onGd v (by simpa using ht v hv)
    have right : ∀ t : Term, (∀ v ∈ t.vars, v ∈ a.vars ∨ v ∈ b.vars) →
        (t.subst ρ₁).subst κ = t.subst τ := fun t ht => by
      rw [Term.subst_subst]
      exact Term.subst_congr fun v hv => onAb v (by simpa using ht v hv)
    have at₂ : (g.subst ρ₂).subtermAt p = some (u.subst ρ₂) := Term.subtermAt_subst at_
    have whole := left g fun v hv => .inl hv
    have part : (u.subst ρ₂).subst κ = u.subst ρ := by
      have atκ := Term.subtermAt_subst (θ := κ) at₂
      rw [whole, Term.subtermAt_subst at_, Option.some.injEq] at atκ
      exact atκ.symm
    have same' : (u.subst ρ₂).subst κ = (a.subst ρ₁).subst κ := by
      rw [part, eq, right a fun v hv => .inl hv]
    obtain ⟨θ, out, mgu, outcome, sub⟩ := all p _ κ at₂ app.subst same'
    have yielded : Yields G s' pairs (g.subst ρ₂, d.subst ρ₂) (a.subst ρ₁, b.subst ρ₁) p θ := by
      refine (outcome.yields at₂ mgu hg₂ hd₂ ha₁ hb₁).imp_left ?_
      rintro ⟨pair, mem, means⟩
      exact ⟨pair, sub mem, means⟩
    have connect := yielded.connect strict cover hg₂ hd₂ hb₁ hκ at₂ mgu same'
    rw [whole, left d fun v hv => .inr hv, right a fun v hv => .inl hv,
      right b fun v hv => .inr hv] at connect
    exact connect down down'

/-- Every overlap of the donors that goes down both ways is connected below. -/
def Connected (G : Gauge) (s : Store) (T : Theory) (donors : Equation × Equation) : Prop :=
  ∃ gd ab, s.Means donors.1 gd ∧ s.Means donors.2 ab ∧ gd.1.Over G.sig ∧ G.Connects T gd ab

theorem Connected.mono {T : Theory} {donors : Equation × Equation} (h : Connected G s T donors)
    (wf : s.WellFormed) (wf' : s'.WellFormed) (le : s ≤ s') : Connected G s' T donors := by
  obtain ⟨gd, ab, hgd, hab, rest⟩ := h
  exact ⟨gd, ab, Equation.means_mono hgd wf wf' le, Equation.means_mono hab wf wf' le, rest⟩

theorem Connected.cover {T T' : Theory} {donors : Equation × Equation} (h : Connected G s T donors)
    (cover : G.Covers T T') : Connected G s T' donors := by
  obtain ⟨gd, ab, hgd, hab, hg, connects⟩ := h
  exact ⟨gd, ab, hgd, hab, hg, connects.cover cover hg⟩

namespace Superposer

open Superposition

/-- The pair arises from two stored donors. -/
def Overlaps (G : Gauge) (s : Store) (donors : Equation × Equation) (pair : Equation) : Prop :=
  ∃ gd ab, s.Means donors.1 gd ∧ s.Means donors.2 ab ∧ Arises G s gd ab pair

theorem Overlaps.mono {donors : Equation × Equation} {pair : Equation} (h : Overlaps G s donors pair)
    (wf : s.WellFormed) (wf' : s'.WellFormed) (le : s ≤ s') : Overlaps G s' donors pair := by
  obtain ⟨gd, ab, hgd, hab, arises⟩ := h
  exact ⟨gd, ab, Equation.means_mono hgd wf wf' le, Equation.means_mono hab wf wf' le,
    arises.mono wf wf' le⟩

/-- What a superposition comes to: the pairs arise from donors and follow from a theory, and with them
whatever has been seen since the start is connected. -/
structure Yields (G : Gauge) (sp sp' : Superposer) (s : Store) (T : Theory)
    (donors : List (Equation × Equation)) (pairs : List Equation) : Prop where
  later : sp.workspace.supply.Later sp'.workspace.supply
  overlaps : ∀ e ∈ pairs, ∃ d ∈ donors, Overlaps G s d e
  follows : ∀ e ∈ pairs, Follows G s T e
  seen : ∀ d ∈ donors, sp'.seen.contains d
  old : ∀ d, sp.seen.contains d → sp'.seen.contains d
  connects : G.strict → sp.workspace.supply.Distinct → ∀ d, sp'.seen.contains d →
    sp.seen.contains d ∨ ∀ T', G.Covers (s.theory pairs) T' → Connected G s T' d

/-- Both donors are stored and follow from a theory. -/
def Donates (G : Gauge) (s : Store) (T : Theory) (donors : Equation × Equation) : Prop :=
  Follows G s T donors.1 ∧ Follows G s T donors.2

theorem contains_insert {seen : Index (Equation × Equation) Unit} {d d' : Equation × Equation} :
    (seen.insert d ()).contains d' = true ↔ d' = d ∨ seen.contains d' = true := by
  rw [Index.contains, Index.find?_insert, Index.contains]
  split
  · rename_i same
    simp [same]
  · rename_i other
    simp [other]

section
variable {P : Equation × Equation → List Equation → Supply → Store → Prop} {sp sp' sp'' : Superposer}
variable {donors donors' : List (Equation × Equation)} {found out out' : List Equation}

/-- What holds of pairs goes on to hold of them. -/
def Lasts (P : Equation × Equation → List Equation → Supply → Store → Prop) : Prop :=
  ∀ (d : Equation × Equation) (pairs : List Equation) (supply supply' : Supply) (s s' : Store),
    P d pairs supply s → supply.Later supply' → s.WellFormed → s'.WellFormed → s ≤ s' → P d pairs supply' s'

/-- Donors that were not seen before are superposed, and the outcome has the pairs of all. -/
structure Collects (P : Equation × Equation → List Equation → Supply → Store → Prop)
    (sp sp' : Superposer) (s : Store) (donors : List (Equation × Equation)) (found out : List Equation) :
    Prop where
  later : sp.workspace.supply.Later sp'.workspace.supply
  seen : ∀ d, sp'.seen.contains d = true ↔ d ∈ donors ∨ sp.seen.contains d = true
  old : found ⊆ out
  arise : ∀ e ∈ out, e ∈ found ∨ ∃ d ∈ donors, ∃ pairs, P d pairs sp'.workspace.supply s ∧ e ∈ pairs
  all : ∀ d ∈ donors, sp.seen.contains d = true ∨ ∃ pairs, P d pairs sp'.workspace.supply s ∧ pairs ⊆ out

theorem Collects.nil : Collects P sp sp s [] found found :=
  ⟨.refl _, by simp, fun _ h => h, fun _ he => .inl he, by simp⟩

theorem Collects.append (lasts : Lasts P) (h : Collects P sp sp' s donors found out)
    (h' : Collects P sp' sp'' s' donors' out out') (wf : s.WellFormed) (wf' : s'.WellFormed) (le : s ≤ s') :
    Collects P sp sp'' s' (donors ++ donors') found out' where
  later := h.later.trans h'.later
  seen := by
    intro d
    rw [h'.seen, h.seen, List.mem_append]
    tauto
  old := fun e he => h'.old (h.old he)
  arise := by
    intro e he
    rcases h'.arise e he with he | ⟨d, hd, pairs, holds, mem⟩
    · refine (h.arise e he).imp_right ?_
      rintro ⟨d, hd, pairs, holds, mem⟩
      exact ⟨d, List.mem_append_left _ hd, pairs, lasts _ _ _ _ _ _ holds h'.later wf wf' le, mem⟩
    · exact .inr ⟨d, List.mem_append_right _ hd, pairs, holds, mem⟩
  all := by
    have before : ∀ d ∈ donors,
        sp.seen.contains d = true ∨ ∃ pairs, P d pairs sp''.workspace.supply s' ∧ pairs ⊆ out' := by
      intro d hd
      refine (h.all d hd).imp_right ?_
      rintro ⟨pairs, holds, sub⟩
      exact ⟨pairs, lasts _ _ _ _ _ _ holds h'.later wf wf' le, fun e he => h'.old (sub he)⟩
    intro d hd
    rcases List.mem_append.1 hd with hd | hd
    · exact before d hd
    · rcases h'.all d hd with seen | new
      · rcases (h.seen d).1 seen with hd | seen
        · exact before d hd
        · exact .inl seen
      · exact .inr new

theorem onWorkspace_spec {α : Type} {x : TermM Workspace OverlapError α} {Q : α → Workspace → Store → Prop}
    {F : Workspace → Store → Prop} (h : TermM.Ensures sp.workspace s x Q F) :
    TermM.Ensures sp s (onWorkspace x) (fun a sp' s' => ∃ w', sp' = { sp with workspace := w' } ∧ Q a w' s')
      fun sp' s' => ∃ w', sp' = { sp with workspace := w' } ∧ F w' s' :=
  .within h

theorem superpose_collects {donor : Equation × Equation} (wf : s.WellFormed)
    (step : TermM.Ensures sp.workspace s (criticalPairs o donor.1 donor.2)
      (fun pairs w' s' => sp.workspace.supply.Later w'.supply ∧ P donor pairs w'.supply s')
      fun w' _ => sp.workspace.supply.Later w'.supply) :
    TermM.Ensures sp s (superpose o found donor) (fun out sp' s' => Collects P sp sp' s' [donor] found out)
      fun sp' _ => sp.workspace.supply.Later sp'.workspace.supply := by
  rw [superpose]
  refine .bindGet ?_
  split
  · rename_i seen
    refine .pure wf ⟨.refl _, fun d => ?_, fun _ h => h, fun _ he => .inl he, fun d hd => ?_⟩
    · rw [List.mem_singleton]
      exact ⟨.inr, fun h => h.elim (fun same => same ▸ seen) id⟩
    · exact .inl (List.mem_singleton.1 hd ▸ seen)
  · refine .bindModify ?_
    have pairs : TermM.Ensures { sp with seen := sp.seen.insert donor () } s _ _ _ := onWorkspace_spec step
    refine (pairs.mono (fun _ _ _ _ _ h => h) ?_).bind ?_
    · rintro _ s' - - ⟨w', rfl, later⟩
      exact later
    · rintro pairs _ s' wf' - ⟨w', rfl, later, holds⟩
      refine .pure wf' ⟨later, fun d => ?_, fun e he => mem_foldl_addNew.2 (.inl he), fun e he => ?_,
        fun d hd => ?_⟩
      · rw [contains_insert, List.mem_singleton]
      · exact (mem_foldl_addNew.1 he).imp_right fun mem =>
          ⟨donor, List.mem_singleton_self donor, pairs, holds, mem⟩
      · rw [List.mem_singleton.1 hd]
        exact .inr ⟨pairs, holds, fun e he => mem_foldl_addNew.2 (.inr he)⟩

theorem superposeAll_collects (lasts : Lasts P)
    (step : ∀ d ∈ donors, ∀ {w : Workspace} {s' : Store}, s'.WellFormed → s ≤ s' →
      sp.workspace.supply.Later w.supply → TermM.Ensures w s' (criticalPairs o d.1 d.2)
        (fun pairs w' s'' => w.supply.Later w'.supply ∧ P d pairs w'.supply s'')
        fun w' _ => w.supply.Later w'.supply) (wf : s.WellFormed) :
    TermM.Ensures sp s (superposeAll o donors) (fun out sp' s' => Collects P sp sp' s' donors [] out)
      fun sp' _ => sp.workspace.supply.Later sp'.workspace.supply := by
  -- what was found before comes along
  suffices gen : ∀ found : List Equation, TermM.Ensures sp s (donors.foldlM (superpose o) found)
      (fun out sp' s' => Collects P sp sp' s' donors found out)
      fun sp' _ => sp.workspace.supply.Later sp'.workspace.supply from gen []
  induction donors generalizing sp s with
  | nil => exact fun found => .pure wf .nil
  | cons donor donors ih =>
      intro found
      rw [List.foldlM_cons]
      refine (superpose_collects wf (step donor List.mem_cons_self wf le_rfl (.refl _))).bind ?_
      intro out sp₁ s₁ wf₁ le₁ collects
      refine (ih (fun d hd {w s'} wf' le' later => step d (List.mem_cons_of_mem _ hd) wf' (le₁.trans le')
        (collects.later.trans later)) wf₁ out).mono ?_ fun _ _ _ _ h => collects.later.trans h
      exact fun out' sp₂ s₂ wf₂ le₂ collects' => collects.append lasts collects' wf₁ wf₂ le₂

end

theorem superposeAll_spec {sp : Superposer} {T : Theory} {donors : List (Equation × Equation)}
    (obeys : o.Obeys G) (wf : s.WellFormed) (donates : ∀ d ∈ donors, Donates G s T d) :
    TermM.Ensures sp s (superposeAll o donors) (fun pairs sp' s' => Yields G sp sp' s' T donors pairs)
      fun sp' _ => sp.workspace.supply.Later sp'.workspace.supply := by
  let P (d : Equation × Equation) (pairs : List Equation) (_ : Supply) (s' : Store) : Prop :=
    (∀ e ∈ pairs, Overlaps G s' d e ∧ Follows G s' T e) ∧
    (G.strict → sp.workspace.supply.Distinct → ∀ T', G.Covers (s'.theory pairs) T' → Connected G s' T' d)
  have lasts : Lasts P := by
    rintro d pairs supply supply' s s' ⟨arise, connected⟩ - wf wf' le
    refine ⟨fun e he => ⟨(arise e he).1.mono wf wf' le, (arise e he).2.mono wf wf' le⟩,
      fun strict distinct T' cover => ?_⟩
    have known : s.HasAll G.sig pairs := fun e he => by
      obtain ⟨x, y, means, hx, hy, -⟩ := (arise e he).2
      exact ⟨x, y, means, hx, hy⟩
    rw [known.theory_eq wf wf' le] at cover
    exact (connected strict distinct T' cover).mono wf wf' le
  refine (superposeAll_collects lasts (fun donor hdonor {w s'} wf' le later => ?_) wf).mono ?_
    fun _ _ _ _ h => h
  · obtain ⟨⟨g, d, hgd, hg, hd, derives⟩, a, b, hab, ha, hb, derives'⟩ := donates donor hdonor
    refine (criticalPairs_spec obeys wf' (Equation.means_mono hgd wf wf' le)
      (Equation.means_mono hab wf wf' le) hg hd ha hb).mono ?_ fun _ _ _ _ h => h
    rintro pairs w₁ s₁ wf₁ le₁ ⟨later₁, arises, connects⟩
    have hgd₁ := Equation.means_mono hgd wf wf₁ (le.trans le₁)
    have hab₁ := Equation.means_mono hab wf wf₁ (le.trans le₁)
    refine ⟨later₁, fun e he => ⟨⟨_, _, hgd₁, hab₁, arises e he⟩, (arises e he).follows derives derives'⟩, ?_⟩
    exact fun strict distinct T' cover => ⟨_, _, hgd₁, hab₁, hg, connects strict (later.distinct distinct) T' cover⟩
  · rintro out sp' s' - - collects
    have arise : ∀ e ∈ out, ∃ d ∈ donors, Overlaps G s' d e ∧ Follows G s' T e := by
      intro e he
      obtain ⟨d, hd, pairs, ⟨holds, -⟩, mem⟩ := (collects.arise e he).resolve_left List.not_mem_nil
      exact ⟨d, hd, holds e mem⟩
    refine ⟨collects.later, fun e he => ?_, fun e he => ?_, fun d hd => (collects.seen d).2 (.inl hd),
      fun d hd => (collects.seen d).2 (.inr hd), fun strict distinct d hd => ?_⟩
    · obtain ⟨d, hd, overlaps, -⟩ := arise e he
      exact ⟨d, hd, overlaps⟩
    · obtain ⟨d, hd, -, follows⟩ := arise e he
      exact follows
    · rcases (collects.seen d).1 hd with hd | seen
      · refine (collects.all d hd).imp_right ?_
        rintro ⟨pairs, ⟨-, connected⟩, sub⟩ T' cover
        exact connected strict distinct T' fun l r hl => cover l r (Store.theory_mono sub hl)
      · exact .inl seen

end Superposer
end OrderedCompletion
