import Mathlib.Data.Option.Basic
import OrderedCompletion.Proofs.Substitution

/-! Matching finds a substitution exactly if there is one. -/

namespace OrderedCompletion

namespace Store

variable {s s' : Store} {σ σ' : Subst} {θ : Var → Term} {r q : Ref} {t : Term}

section
variable {α β : Type} {x : OptionT StoreM α} {f : α → OptionT StoreM β}
variable {Q : Option α → Store → Prop} {R : Option β → Store → Prop}

theorem Ensures.bindOption (hx : s.Ensures x.run Q)
    (found : ∀ a s', s'.WellFormed → s ≤ s' → Q (some a) s' → s'.Ensures (f a).run R)
    (nothing : ∀ s', s'.WellFormed → s ≤ s' → Q none s' → R none s') :
    s.Ensures (x >>= f).run R := by
  rw [OptionT.run_bind, Option.elimM]
  refine Ensures.bind hx fun o s' wf' le' h => ?_
  cases o with
  | none => exact .pure wf' (nothing s' wf' le' h)
  | some a => exact found a s' wf' le' h

theorem Ensures.liftOption {y : StoreM α} {P : α → Store → Prop} (h : s.Ensures y P) :
    s.Ensures (liftM y : OptionT StoreM α).run fun o s' => ∃ a, o = some a ∧ P a s' :=
  Ensures.map h fun a _ _ _ h => ⟨a, rfl, h⟩

theorem Ensures.bindLift {y : StoreM α} {P : α → Store → Prop} (h : s.Ensures y P)
    (found : ∀ a s', s'.WellFormed → s ≤ s' → P a s' → s'.Ensures (f a).run R) :
    s.Ensures ((liftM y : OptionT StoreM α) >>= f).run R := by
  refine Ensures.bindOption h.liftOption ?_ ?_
  · rintro a s' wf' le' ⟨_, same, h⟩
    cases same
    exact found a s' wf' le' h
  · rintro s' - - ⟨_, same, -⟩
    cases same

theorem Ensures.pureOption {a : α} (wf : s.WellFormed) (h : Q (some a) s) :
    s.Ensures (Pure.pure a : OptionT StoreM α).run Q :=
  ⟨wf, le_refl s, h⟩

theorem Ensures.failure (wf : s.WellFormed) (h : Q none s) :
    s.Ensures (Alternative.failure : OptionT StoreM α).run Q :=
  ⟨wf, le_refl s, h⟩

theorem Ensures.bindGuard {p : Prop} [Decidable p] {g : Unit → OptionT StoreM β} (wf : s.WellFormed)
    (holds : p → s.Ensures (g ()).run R) (fails : ¬ p → R none s) :
    s.Ensures ((guard p : OptionT StoreM Unit) >>= g).run R := by
  by_cases hp : p
  · rw [guard, if_pos hp, pure_bind]
    exact holds hp
  · refine Ensures.bindOption (Q := fun o s' => o = none ∧ s' = s) ?_ ?_ ?_
    · rw [guard, if_neg hp]
      exact Ensures.failure wf ⟨rfl, rfl⟩
    · rintro a s' - - ⟨same, -⟩
      cases same
    · rintro s' - - ⟨-, rfl⟩
      exact fails hp

end

/-- What the extension of a substitution comes to: with one that satisfies the invariant exactly the
solutions are left, and there is none only if there are no solutions. -/
def Refines (inv : Subst → Prop) (sat : Subst → (Var → Term) → Prop) (σ : Subst)
    (solves : (Var → Term) → Prop) : Option Subst → Prop
  | some σ' => inv σ' ∧ ∀ θ, sat σ' θ ↔ sat σ θ ∧ solves θ
  | none => ∀ θ, sat σ θ → ¬ solves θ

section
variable {inv : Subst → Prop} {sat : Subst → (Var → Term) → Prop} {pairs : List (Ref × Ref)}
variable {f : Subst → Ref × Ref → OptionT StoreM Subst}

/-- What one pair after the other comes to. -/
theorem foldlM_refines {σ₀ : Subst} (solves : Ref × Ref → (Var → Term) → Prop)
    (step : ∀ pair ∈ pairs, ∀ σ s', s'.WellFormed → SameTerms s s' → inv σ →
      (∀ θ, sat σ θ → sat σ₀ θ) →
      s'.Ensures (f σ pair).run fun o s'' => SameTerms s s'' ∧ Refines inv sat σ (solves pair) o)
    (wf' : s'.WellFormed) (same : SameTerms s s') (hσ : inv σ) (from₀ : ∀ θ, sat σ θ → sat σ₀ θ) :
    s'.Ensures (pairs.foldlM f σ).run fun o s'' =>
      SameTerms s s'' ∧ Refines inv sat σ (fun θ => ∀ pair ∈ pairs, solves pair θ) o := by
  induction pairs generalizing s' σ with
  | nil => exact .pureOption wf' ⟨same, hσ, by simp⟩
  | cons pair pairs ih =>
      rw [List.foldlM_cons]
      refine Ensures.bindOption (step pair (by simp) σ s' wf' same hσ from₀) ?_ ?_
      · rintro σ₁ s₁ wf₁ - ⟨same₁, h₁, sat₁⟩
        have rest := ih (fun pr hpr => step pr (by simp [hpr])) wf₁ same₁ h₁
          fun θ hθ => from₀ θ ((sat₁ θ).1 hθ).1
        refine rest.mono fun o s₂ _ _ h => ⟨h.1, ?_⟩
        cases o with
        | none =>
            intro θ hθ all
            have := h.2 θ ((sat₁ θ).2 ⟨hθ, all pair (by simp)⟩)
            exact this fun pr hpr => all pr (by simp [hpr])
        | some σ₂ =>
            refine ⟨h.2.1, fun θ => ?_⟩
            rw [h.2.2 θ, sat₁ θ, and_assoc]
            simp only [List.forall_mem_cons]
      · rintro s₁ - - ⟨same₁, h⟩
        exact ⟨same₁, fun θ hθ all => h θ hθ (all pair (by simp))⟩

end

theorem Refines.congr {inv : Subst → Prop} {sat : Subst → (Var → Term) → Prop}
    {solves solves' : (Var → Term) → Prop} {o : Option Subst} (h : Refines inv sat σ solves o)
    (same : ∀ θ, sat σ θ → (solves θ ↔ solves' θ)) : Refines inv sat σ solves' o := by
  cases o with
  | none => exact fun θ hθ solved => h θ hθ ((same θ hθ).2 solved)
  | some σ' => exact ⟨h.1, fun θ => (h.2 θ).trans (and_congr_right (same θ))⟩

theorem map_eq_map_iff_zip {α β γ : Type} {F : α → γ} {G : β → γ} {as : List α} {bs : List β}
    (h : as.length = bs.length) :
    as.map F = bs.map G ↔ ∀ pair ∈ as.zip bs, F pair.1 = G pair.2 := by
  induction as generalizing bs with
  | nil =>
      cases bs with
      | nil => simp
      | cons b bs => cases h
  | cons a as ih =>
      cases bs with
      | nil => cases h
      | cons b bs =>
          rw [List.map_cons, List.map_cons, List.cons.injEq, ih (Nat.succ.inj h), List.zip_cons_cons,
            List.forall_mem_cons]

/-- Applications are equal if heads, numbers of arguments and arguments are. -/
theorem app_eq_app_iff {f g : Head} {ss ts : List Ref} {F G : Ref → Term} :
    Term.app f (ss.map F) = .app g (ts.map G) ↔
      (f = g ∧ ss.length = ts.length) ∧ ∀ pair ∈ (ss.zip ts).reverse, F pair.1 = G pair.2 := by
  simp only [Term.app.injEq, List.mem_reverse]
  constructor
  · rintro ⟨hf, h⟩
    have len : ss.length = ts.length := by simpa using congrArg List.length h
    exact ⟨⟨hf, len⟩, (map_eq_map_iff_zip len).1 h⟩
  · rintro ⟨⟨hf, len⟩, h⟩
    exact ⟨hf, (map_eq_map_iff_zip len).2 h⟩

/-- The substitution takes the pattern of a pair to its target. -/
def Takes (s : Store) (pair : Ref × Ref) (θ : Var → Term) : Prop :=
  (s.term pair.1).subst θ = s.term pair.2

theorem Agrees.bind_iff (free : σ.find? r = none) :
    s.Agrees (σ.bind r q) θ ↔ s.Agrees σ θ ∧ s.Denotes q (θ r) := by
  constructor
  · intro h
    refine ⟨fun v p hv => h v p ?_, h r q (by rw [Subst.find?_bind, if_pos rfl])⟩
    rw [Subst.find?_bind, if_neg, hv]
    rintro rfl
    rw [free] at hv
    cases hv
  · rintro ⟨h, hr⟩ v p hv
    rw [Subst.find?_bind] at hv
    split at hv
    · rename_i same
      cases hv
      exact same ▸ hr
    · exact h v p hv

theorem Knows.bind (h : s.Knows σ) {v : Var} (hq : q < s.size) : s.Knows (σ.bind v q) := by
  intro w p hw
  rw [Subst.find?_bind] at hw
  split at hw
  · cases hw
    exact hq
  · exact h w p hw

theorem takes_ground_iff {p : Ref} (wf : s.WellFormed) (hp : p < s.size) (hq : q < s.size)
    (ground : (s.term p).IsGround) : s.Takes (p, q) θ ↔ p = q := by
  rw [Takes, ground.subst_eq, term_eq_iff wf hp hq]

theorem takes_var_iff {p : Ref} {v : Var} (wf : s.WellFormed) (hq : q < s.size)
    (hnode : s.node? p = some (.var v)) : s.Takes (p, q) θ ↔ s.Denotes q (θ v) := by
  rw [Takes, wf.below.term_var hnode, Term.subst_var]
  exact ⟨fun h => ⟨hq, h.symm⟩, fun h => h.2.symm⟩

theorem takes_app_iff {p : Ref} {f g : Head} {ss ts : List Ref} (wf : s.WellFormed)
    (hp : s.node? p = some (.app f ss)) (hq : s.node? q = some (.app g ts)) : s.Takes (p, q) θ ↔
      (f = g ∧ ss.length = ts.length) ∧ ∀ pair ∈ (ss.zip ts).reverse, s.Takes pair θ := by
  rw [Takes, wf.below.term_app hp, wf.below.term_app hq, Term.subst_app, List.map_map]
  exact app_eq_app_iff

theorem matchWithin_spec {n : Nat} {p : Ref} (wf : s.WellFormed) (hp : p < s.size) (ht : q < s.size)
    (hn : p < n) (hσ : s.Knows σ) (wf' : s'.WellFormed) (same : SameTerms s s') :
    s'.Ensures (matchWithin n σ (p, q)).run fun o s'' =>
      SameTerms s s'' ∧ Refines s.Knows s.Agrees σ (s.Takes (p, q)) o := by
  induction n generalizing s' p q σ with
  | zero => exact absurd hn (Nat.not_lt_zero p)
  | succ n ih =>
      rw [matchWithin]
      have hd : s'.Denotes p (s.term p) := same.denotes.2 (denotes_term hp)
      refine Ensures.bindLift (isGround_spec wf' hd) ?_
      rintro _ s₁ wf₁ - ⟨rfl, same₁⟩
      replace same₁ := same.trans same₁
      by_cases none : (s.term p).vars.isEmpty = true
      · rw [if_pos none]
        have fixed : ∀ θ, s.Takes (p, q) θ ↔ p = q := fun _ =>
          takes_ground_iff wf hp ht (List.isEmpty_iff.1 none)
        refine Ensures.bindGuard wf₁ (fun eq => .pureOption wf₁ ⟨same₁, hσ, ?_⟩) fun ne => ⟨same₁, ?_⟩
        · exact fun θ => ⟨fun h => ⟨h, (fixed θ).2 eq⟩, fun h => h.1⟩
        · exact fun θ _ h => ne ((fixed θ).1 h)
      · rw [if_neg none]
        refine Ensures.bindLift (Ensures.get wf₁) ?_
        rintro _ s₂ - - ⟨rfl, rfl⟩
        obtain ⟨node, hnode⟩ := exists_node hp
        obtain ⟨target, htarget⟩ := exists_node ht
        rw [same₁.node?, same₁.node?, hnode, htarget]
        cases node with
        | var v =>
            have takes : ∀ θ, s.Takes (p, q) θ ↔ s.Denotes q (θ v) := fun _ => takes_var_iff wf ht hnode
            dsimp only
            cases hu : σ.find? v with
            | some u =>
                refine Ensures.bindGuard wf₁ (fun eq => .pureOption wf₁ ⟨same₁, hσ, fun θ => ?_⟩)
                  fun ne => ⟨same₁, fun θ hθ h => ne ?_⟩
                · refine ⟨fun h => ⟨h, (takes θ).2 ?_⟩, fun h => h.1⟩
                  exact eq ▸ h v u hu
                · exact (hθ v u hu).inj ((takes θ).1 h) wf
            | none =>
                refine .pureOption wf₁ ⟨same₁, hσ.bind ht, fun θ => ?_⟩
                rw [Agrees.bind_iff hu, takes θ]
        | app f ss =>
            cases target with
            | var w =>
                refine .failure wf₁ ⟨same₁, fun θ _ h => ?_⟩
                rw [Takes, wf.below.term_app hnode, wf.below.term_var htarget] at h
                simp at h
            | app g ts =>
                have takes : ∀ θ, s.Takes (p, q) θ ↔ _ := fun _ => takes_app_iff wf hnode htarget
                refine Ensures.bindGuard wf₁ (fun eq => ?_) fun ne => ⟨same₁, fun θ _ h => ne ?_⟩
                · refine (foldlM_refines s.Takes ?_ wf₁ same₁ hσ
                    fun _ h => h).mono fun o s₃ _ _ h => ⟨h.1, h.2.congr fun θ _ => ?_⟩
                  · intro pair hpair σ' s' wf' same hσ' _
                    obtain ⟨ha, hb⟩ := List.of_mem_zip (List.mem_reverse.1 hpair)
                    have lt := wf.below hnode _ ha
                    exact ih (Nat.lt_trans lt hp) (Nat.lt_trans (wf.below htarget _ hb) ht)
                      (Nat.lt_of_lt_of_le lt (Nat.le_of_lt_succ hn)) hσ' wf' same
                  · rw [takes θ]
                    exact ⟨fun h => ⟨eq, h⟩, fun h => h.2⟩
                · exact ((takes θ).1 h).1

/-- Of pairs of known references a substitution is found exactly if there is one. -/
theorem matchPairs?_spec (wf : s.WellFormed) {pairs : List (Ref × Ref)}
    (known : ∀ pair ∈ pairs, pair.1 < s.size ∧ pair.2 < s.size) :
    s.Ensures (matchPairs? pairs).run fun o s' => SameTerms s s' ∧
      Refines s.Knows s.Agrees .empty (fun θ => ∀ pair ∈ pairs, s.Takes pair θ) o := by
  rw [matchPairs?]
  refine Ensures.bindLift (Ensures.get wf) ?_
  rintro _ s' - - ⟨rfl, rfl⟩
  have none : s'.Knows .empty := fun v q hv => by cases hv
  refine (foldlM_refines s'.Takes ?_ wf (.refl s') none
    fun _ h => h).mono fun o s₁ _ _ h => ⟨h.1, h.2.congr fun θ _ => ?_⟩
  · intro pair hpair σ s₁ wf₁ same hσ _
    obtain ⟨hp, hq⟩ := known pair (List.mem_reverse.1 hpair)
    exact matchWithin_spec wf hp hq (Nat.lt_succ_of_lt hp) hσ wf₁ same
  · simp only [List.mem_reverse]

theorem SameTerms.knows (same : SameTerms s s') : s'.Knows = s.Knows := by
  funext σ
  rw [Knows, Knows, same.size]

theorem SameTerms.agrees (same : SameTerms s s') : s'.Agrees = s.Agrees := by
  funext σ θ
  simp only [Agrees, same.denotes]

/-- The outcome of a match of a pattern with a target. -/
theorem match?_spec (wf : s.WellFormed) {pattern target : Ref} {p t : Term}
    (hp : s.Denotes pattern p) (ht : s.Denotes target t) :
    s.Ensures (match? pattern target).run fun o s' => SameTerms s s' ∧
      Refines s'.Knows s'.Agrees .empty (fun θ => p.subst θ = t) o := by
  refine (matchPairs?_spec wf ?_).mono fun o s' _ _ h => ?_
  · intro pair hpair
    obtain rfl := List.mem_singleton.1 hpair
    exact ⟨hp.1, ht.1⟩
  · rw [h.1.knows, h.1.agrees]
    refine ⟨h.1, h.2.congr fun θ _ => ?_⟩
    rw [List.forall_mem_singleton, Takes, hp.2, ht.2]

/-- The images, with another one at a variable. -/
def imageBut (s : Store) (σ : Subst) (v : Var) : Var → Term :=
  fun w => if w = v then .app (.frozen 0) [s.image σ v] else s.image σ w

theorem imageBut_other {v w : Var} (other : w ≠ v) : s.imageBut σ v w = s.image σ w := if_neg other

theorem imageBut_ne (v : Var) : s.imageBut σ v v ≠ s.image σ v := by
  intro same
  rw [imageBut, if_pos rfl] at same
  have deeper : (s.image σ v).depth < (Term.app (.frozen 0) [s.image σ v]).depth :=
    Term.depth_lt_of_mem (List.mem_singleton_self _)
  rw [same] at deeper
  exact Nat.lt_irrefl _ deeper

section
variable {solves : (Var → Term) → Prop} {V : Var → Prop} {v : Var}

theorem Refines.solves_image (h : Refines s.Knows s.Agrees .empty solves (some σ)) : solves (s.image σ) :=
  ((h.2 _).1 h.1.binds.bound).2

/-- No other variables are bound than those that the solutions depend on. -/
theorem Refines.of_bound (h : Refines s.Knows s.Agrees .empty solves (some σ))
    (depends : ∀ θ η : Var → Term, (∀ w, V w → θ w = η w) → solves θ → solves η)
    (hv : σ.find? v = some q) : V v := by
  by_contra outside
  have moved : solves (s.imageBut σ v) := by
    refine depends _ _ (fun w hw => (imageBut_other ?_).symm) h.solves_image
    rintro rfl
    exact outside hw
  have agrees := (h.2 _).2 ⟨agrees_empty _, moved⟩
  exact imageBut_ne v ((agrees v q hv).2.symm.trans (image_bound hv).symm)

/-- All variables are bound at which the solutions are the same. -/
theorem Refines.exists_bound (h : Refines s.Knows s.Agrees .empty solves (some σ))
    (determined : ∀ θ η : Var → Term, solves θ → solves η → ∀ w, V w → θ w = η w) (hv : V v) :
    ∃ q, σ.find? v = some q := by
  cases free : σ.find? v with
  | some q => exact ⟨q, rfl⟩
  | none =>
      have agrees : s.Agrees σ (s.imageBut σ v) := by
        intro w q hw
        rw [imageBut_other fun same => by rw [same, free] at hw; cases hw]
        exact h.1.binds.bound w q hw
      have moved := ((h.2 _).1 agrees).2
      exact absurd (determined _ _ moved h.solves_image v hv) (imageBut_ne v)

end

/-- A match takes the pattern to the target and binds variables of the pattern only. -/
theorem Refines.matches {p t : Term}
    (h : Refines s.Knows s.Agrees .empty (fun θ => p.subst θ = t) (some σ)) :
    (∀ θ, s.Agrees σ θ → p.subst θ = t) ∧ ∀ v q, σ.find? v = some q → v ∈ p.vars := by
  refine ⟨fun θ hθ => ((h.2 θ).1 hθ).2, fun v q hv => h.of_bound (fun θ η same solved => ?_) hv⟩
  rw [← solved]
  exact Term.subst_congr fun w hw => (same w hw).symm

/-- Every variable of the pattern is bound. -/
theorem Refines.isBound {p t : Term} {v : Var}
    (h : Refines s.Knows s.Agrees .empty (fun θ => p.subst θ = t) (some σ)) (hv : v ∈ p.vars) :
    σ.isBound v = true := by
  by_contra unbound
  have free := Subst.find?_eq_none.2 (eq_false_of_ne_true unbound)
  -- an unbound variable might stand for anything
  have any : ∀ u, p.subst (Function.update (s.image σ) v u) = t := by
    intro u
    refine h.matches.1 _ fun w q hw => ?_
    have other : w ≠ v := by
      rintro rfl
      rw [free] at hw
      cases hw
    rw [Function.update_of_ne other]
    exact h.1.binds.bound w q hw
  have same := Term.eq_of_subst_eq ((any (.var 0)).trans (any (.var 1)).symm) v hv
  rw [Function.update_self, Function.update_self] at same
  cases same

end Store

namespace Equation

variable {s : Store} {e d : Equation} {l r a b : Term}

/-- An equation subsumes another one if that is an instance of it. -/
theorem subsumes_spec (wf : s.WellFormed) (he : s.Means e (l, r)) (hd : s.Means d (a, b)) :
    s.Ensures (e.subsumes d) fun yes s' => Store.SameTerms s s' ∧
      (yes = true ↔ ∃ θ, l.subst θ = a ∧ r.subst θ = b) := by
  rw [subsumes]
  refine (Store.matchPairs?_spec wf ?_).bind ?_
  · simp only [List.mem_cons, List.not_mem_nil, or_false]
    rintro pair (rfl | rfl)
    · exact ⟨he.1.1, hd.1.1⟩
    · exact ⟨he.2.1, hd.2.1⟩
  · intro o s' wf' _ h
    refine .pure wf' ⟨h.1, ?_⟩
    have takes : ∀ θ, (∀ pair ∈ [(e.lhs, d.lhs), (e.rhs, d.rhs)], s.Takes pair θ) ↔
        l.subst θ = a ∧ r.subst θ = b := by
      intro θ
      simp only [List.forall_mem_cons, List.not_mem_nil, false_implies, implies_true, and_true,
        Store.Takes, he.1.2, he.2.2, hd.1.2, hd.2.2]
    have spec := h.2.congr fun θ _ => takes θ
    cases o with
    | none =>
        constructor
        · intro no
          cases no
        · rintro ⟨θ, hθ⟩
          exact absurd hθ (spec θ fun v q hv => by cases hv)
    | some σ =>
        refine ⟨fun _ => ⟨s.image σ, ?_⟩, fun _ => rfl⟩
        exact ((spec.2 _).1 spec.1.binds.bound).2

theorem subsumesEither_spec (wf : s.WellFormed) (he : s.Means e (l, r)) (hd : s.Means d (a, b)) :
    s.Ensures (e.subsumesEither d) fun yes s' => Store.SameTerms s s' ∧
      (yes = true ↔ ∃ θ, (l.subst θ = a ∧ r.subst θ = b) ∨ (l.subst θ = b ∧ r.subst θ = a)) := by
  rw [subsumesEither]
  refine (subsumes_spec wf he hd).bind fun yes s₁ wf₁ le₁ h₁ => ?_
  split
  · rename_i straight
    obtain ⟨θ, hθ⟩ := h₁.2.1 straight
    exact .pure wf₁ ⟨h₁.1, fun _ => ⟨θ, .inl hθ⟩, fun _ => rfl⟩
  · rename_i no
    have he₁ := means_mono he wf wf₁ le₁
    have hd₁ := means_reversed (means_mono hd wf wf₁ le₁)
    refine (subsumes_spec wf₁ he₁ hd₁).mono fun yes s₂ _ _ h₂ => ⟨h₁.1.trans h₂.1, ?_⟩
    rw [h₂.2, exists_or]
    exact (or_iff_right (mt h₁.2.2 no)).symm

/-- The second equation is an instance of the first one, which may be reversed. -/
def Subsumes (s : Store) (e d : Equation) : Prop :=
  ∃ l r θ, s.Means e (l, r) ∧
    (s.Means d (Term.subst θ l, Term.subst θ r) ∨ s.Means d (Term.subst θ r, Term.subst θ l))

theorem subsumesEither_iff (wf : s.WellFormed) (he : s.Means e (l, r)) (hd : s.Means d (a, b)) :
    s.Ensures (e.subsumesEither d) fun yes s' => Store.SameTerms s s' ∧ (yes = true ↔ Subsumes s e d) := by
  refine (subsumesEither_spec wf he hd).mono fun yes s' _ _ h => ⟨h.1, ?_⟩
  rw [h.2]
  constructor
  · rintro ⟨θ, ⟨rfl, rfl⟩ | ⟨rfl, rfl⟩⟩
    · exact ⟨l, r, θ, he, .inl hd⟩
    · exact ⟨l, r, θ, he, .inr hd⟩
  · rintro ⟨l', r', θ, he', either⟩
    obtain rfl := he.1.unique he'.1
    obtain rfl := he.2.unique he'.2
    rcases either with hd' | hd'
    · exact ⟨θ, .inl ⟨hd'.1.unique hd.1, hd'.2.unique hd.2⟩⟩
    · exact ⟨θ, .inr ⟨hd'.2.unique hd.2, hd'.1.unique hd.1⟩⟩

theorem subsumes_same {s' : Store} (same : Store.SameTerms s s') : Subsumes s' e d ↔ Subsumes s e d := by
  simp only [Subsumes, Store.Means, same.denotes]

end Equation
end OrderedCompletion
