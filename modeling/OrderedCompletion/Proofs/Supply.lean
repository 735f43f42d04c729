import OrderedCompletion.Proofs.Actions

/-! Fresh variables: what a supply hands out, and renaming with it. -/

namespace OrderedCompletion

namespace VarSource

variable {source rest : VarSource} {reserved : List Var} {v w : Var}

/-- The variables that are still to come. -/
def Offers : VarSource → Var → Prop
  | .counting n, v => n ≤ v
  | .listed vs, v => v ∈ vs

/-- No variable that is not reserved comes twice. -/
def DistinctOutside (reserved : List Var) : VarSource → Prop
  | .counting _ => True
  | .listed vs => (vs.filter fun v => v ∉ reserved).Nodup

theorem next?_spec (h : source.next? = some (v, rest)) :
    source.Offers v ∧ (∀ w, rest.Offers w → source.Offers w) ∧
      (source.DistinctOutside reserved →
        rest.DistinctOutside reserved ∧ (v ∉ reserved → ¬ rest.Offers v)) := by
  cases source with
  | counting n =>
      rw [next?] at h
      split at h
      · cases h
        refine ⟨Nat.le_refl v, fun w hw => Nat.le_of_succ_le hw, fun _ => ⟨trivial, fun _ => ?_⟩⟩
        exact Nat.not_succ_le_self v
      · cases h
  | listed vs =>
      cases vs with
      | nil => cases h
      | cons x xs =>
          cases h
          refine ⟨List.mem_cons_self, fun w hw => List.mem_cons_of_mem _ hw, fun distinct => ?_⟩
          rw [DistinctOutside, List.filter_cons] at distinct
          split at distinct
          · rename_i outside
            obtain ⟨apart, distinct⟩ := List.nodup_cons.1 distinct
            refine ⟨distinct, fun _ again => apart (List.mem_filter.2 ⟨again, outside⟩)⟩
          · rename_i inside
            exact ⟨distinct, fun outside => absurd (by simpa using outside) inside⟩

theorem nextOutside_spec {n : Nat} (h : source.nextOutside reserved n = some (v, rest)) :
    v ∉ reserved ∧ source.Offers v ∧ (∀ w, rest.Offers w → source.Offers w) ∧
      (source.DistinctOutside reserved → rest.DistinctOutside reserved ∧ ¬ rest.Offers v) := by
  induction n generalizing source with
  | zero => cases h
  | succ n ih =>
      rw [nextOutside] at h
      split at h
      · cases h
      · rename_i x next hx
        obtain ⟨offers, later, distinct⟩ := next?_spec hx
        split at h
        · obtain ⟨outside, offers', later', distinct'⟩ := ih h
          exact ⟨outside, later _ offers', fun w hw => later w (later' w hw),
            fun d => distinct' (distinct d).1⟩
        · rename_i outside
          cases h
          exact ⟨outside, offers, later, fun d => ⟨(distinct d).1, (distinct d).2 outside⟩⟩

end VarSource

namespace Supply

variable {supply supply' supply'' : Supply} {v : Var}

/-- The variables that may still be drawn. -/
def Offers (supply : Supply) (v : Var) : Prop := supply.source.Offers v ∧ v ∉ supply.reserved

/-- No variable is drawn twice. -/
def Distinct (supply : Supply) : Prop := supply.source.DistinctOutside supply.reserved

/-- Nothing new is offered, and nothing twice that was not offered twice before. -/
structure Later (supply supply' : Supply) : Prop where
  offers : ∀ v, supply'.Offers v → supply.Offers v
  distinct : supply.Distinct → supply'.Distinct

/-- No variable of the term will be drawn. -/
def Withholds (supply : Supply) (t : Term) : Prop := ∀ v ∈ t.vars, ¬ supply.Offers v

theorem Withholds.later {t : Term} (h : supply.Withholds t) (later : supply.Later supply') :
    supply'.Withholds t :=
  fun v hv offered => h v hv (later.offers v offered)

theorem Withholds.of_vars {t u : Term} (h : supply.Withholds t) (sub : ∀ v ∈ u.vars, v ∈ t.vars) :
    supply.Withholds u :=
  fun v hv => h v (sub v hv)

theorem Later.refl (supply : Supply) : Later supply supply := ⟨fun _ h => h, fun h => h⟩

theorem Later.trans (h : Later supply supply') (h' : Later supply' supply'') :
    Later supply supply'' :=
  ⟨fun v hv => h.offers v (h'.offers v hv), fun d => h'.distinct (h.distinct d)⟩

theorem mem_reserve {vs : List Var} :
    v ∈ (supply.reserve vs).reserved ↔ v ∈ supply.reserved ∨ v ∈ vs := by
  suffices gen : ∀ old : List Var,
      v ∈ vs.foldl (fun r v => if v ∈ r then r else v :: r) old ↔ v ∈ old ∨ v ∈ vs from gen _
  induction vs with
  | nil => simp
  | cons w ws ih =>
      intro old
      rw [List.foldl_cons, ih, List.mem_cons]
      split
      · rename_i there
        constructor
        · exact fun h => h.imp_right .inr
        · rintro (h | rfl | h)
          · exact .inl h
          · exact .inl there
          · exact .inr h
      · rw [List.mem_cons, or_assoc, or_left_comm]

theorem reserve_later (vs : List Var) : Later supply (supply.reserve vs) where
  offers := fun v hv => ⟨hv.1, fun old => hv.2 (mem_reserve.2 (.inl old))⟩
  distinct := by
    intro distinct
    rw [Distinct] at distinct ⊢
    change supply.source.DistinctOutside _
    cases hs : supply.source with
    | counting n => trivial
    | listed ws =>
        rw [hs, VarSource.DistinctOutside] at distinct
        rw [VarSource.DistinctOutside]
        refine distinct.sublist (List.monotone_filter_right ws fun w hw => ?_)
        simp only [decide_eq_true_eq] at hw ⊢
        exact fun old => hw (mem_reserve.2 (.inl old))

theorem draw_spec : Later supply supply.draw.2 ∧
    ∀ v, supply.draw.1 = .ok v → supply.Offers v ∧ (supply.Distinct → ¬ supply.draw.2.Offers v) := by
  rw [draw]
  split
  · rename_i v source h
    obtain ⟨outside, offers, later, distinct⟩ := VarSource.nextOutside_spec h
    refine ⟨⟨fun w hw => ⟨later w hw.1, hw.2⟩, fun d => (distinct d).1⟩, fun w hw => ?_⟩
    cases hw
    exact ⟨⟨offers, outside⟩, fun d again => (distinct d).2 again.1⟩
  · exact ⟨⟨fun w hw => (by cases hw.1), fun _ => List.nodup_nil⟩, fun w hw => by cases hw⟩

/-- The next so many draws succeed. -/
def Provides : Nat → Supply → Prop
  | 0, _ => True
  | n + 1, supply => supply.draw.1.isOk = true ∧ Provides n supply.draw.2

instance decidableProvides : (n : Nat) → (supply : Supply) → Decidable (supply.Provides n)
  | 0, _ => .isTrue trivial
  | n + 1, supply =>
    have := decidableProvides n supply.draw.2
    inferInstanceAs (Decidable (supply.draw.1.isOk = true ∧ supply.draw.2.Provides n))

theorem Provides.mono {n m : Nat} (h : Provides m supply) (le : n ≤ m) : Provides n supply := by
  induction n generalizing m supply with
  | zero => trivial
  | succ n ih =>
      cases m with
      | zero => exact absurd le (Nat.not_succ_le_zero n)
      | succ m => exact ⟨h.1, ih h.2 (Nat.le_of_succ_le_succ le)⟩

end Supply

/-- Variables are sent to variables drawn in between, different ones to different ones if none is drawn
twice. -/
structure Renames (supply supply' : Supply) (vs : List Var) (ρ : Var → Term) : Prop where
  later : supply.Later supply'
  fresh : ∀ v ∈ vs, ∃ x, ρ v = .var x ∧ supply.Offers x ∧ (supply.Distinct → ¬ supply'.Offers x)
  inj : supply.Distinct → ∀ v ∈ vs, ∀ w ∈ vs, ρ v = ρ w → v = w

theorem Renames.over {supply supply' : Supply} {vs : List Var} {ρ : Var → Term} {sig : Signature} {t : Term}
    (h : Renames supply supply' vs ρ) (ht : t.Over sig) (known : ∀ v ∈ t.vars, v ∈ vs) :
    (t.subst ρ).Over sig := by
  refine ht.subst fun v hv => ?_
  obtain ⟨x, hx, -⟩ := h.fresh v (known v hv)
  rw [hx]
  exact .var x

namespace Workspace

variable {s : Store} {w : Workspace} {σ : Subst} {η : Var → Term}

/-- What a draw that fails leaves of a supply. -/
abbrev Drawn (w w' : Workspace) (_ : Store) : Prop := w.supply.Later w'.supply

theorem drawVar_spec (wf : s.WellFormed) :
    TermM.Ensures w s drawVar (fun r w' s' => w.supply.Later w'.supply ∧ ∃ v, s'.Denotes r (.var v) ∧
      w.supply.Offers v ∧ (w.supply.Distinct → ¬ w'.supply.Offers v)) (Drawn w) := by
  obtain ⟨later, drawn⟩ := w.supply.draw_spec
  rw [drawVar]
  refine .bindGet ?_
  rcases hd : w.supply.draw with ⟨_ | v, supply⟩
  · rw [hd] at later
    exact .bindModify ⟨wf, le_refl s, later⟩
  · rw [hd] at later drawn
    obtain ⟨offers, again⟩ := drawn v rfl
    refine .bindModify (.lift (Store.var_spec wf v) fun r s' _ _ hr => ?_)
    exact ⟨later, v, hr, offers, again⟩

theorem drawRenaming_spec {vs : List Var} (nodup : vs.Nodup) (wf : s.WellFormed) (hb : s.Binds σ η) :
    TermM.Ensures w s (drawRenaming σ vs) (fun σ' w' s' => ∃ ρ, s'.Binds σ' ρ ∧
      Renames w.supply w'.supply vs ρ ∧ ∀ v, v ∉ vs → ρ v = η v) (Drawn w) := by
  induction vs generalizing w s σ η with
  | nil =>
      refine .pure wf ⟨η, hb, ⟨.refl _, fun v hv => ?_, fun _ v hv => ?_⟩, fun _ _ => rfl⟩
      · cases hv
      · cases hv
  | cons v vs ih =>
      obtain ⟨apart, nodup⟩ := List.nodup_cons.1 nodup
      rw [drawRenaming]
      refine (drawVar_spec wf).bind ?_
      rintro r w₁ s₁ wf₁ le₁ ⟨later, x, hx, offers, again⟩
      refine (ih nodup wf₁ ((hb.mono wf wf₁ le₁).bind hx)).mono ?_ fun _ _ _ _ h => later.trans h
      rintro σ' w' s' - - ⟨ρ, hρ, renames, others⟩
      have first : ρ v = .var x := by rw [others v apart, if_pos rfl]
      -- what is drawn later is not what was drawn first
      have differs : w.supply.Distinct → ∀ u ∈ vs, ρ v ≠ ρ u := by
        intro distinct u hu eq
        obtain ⟨y, hy, offered, -⟩ := renames.fresh u hu
        rw [first, hy, Term.var.injEq] at eq
        exact again distinct (eq ▸ offered)
      refine ⟨ρ, hρ, ⟨later.trans renames.later, fun u hu => ?_, fun distinct u hu u' hu' eq => ?_⟩,
        fun u hu => ?_⟩
      · rcases List.mem_cons.1 hu with rfl | hu
        · exact ⟨x, first, offers, fun d offered => again d (renames.later.offers x offered)⟩
        · obtain ⟨y, hy, offered, gone⟩ := renames.fresh u hu
          exact ⟨y, hy, later.offers y offered, fun d => gone (later.distinct d)⟩
      · rcases List.mem_cons.1 hu with rfl | hu
        · rcases List.mem_cons.1 hu' with rfl | hu'
          · rfl
          · exact absurd eq (differs distinct u' hu')
        · rcases List.mem_cons.1 hu' with same | hu'
          · exact absurd (same ▸ eq.symm) (differs distinct u hu)
          · exact renames.inj (later.distinct distinct) u hu u' hu' eq
      · rw [others u fun h => hu (List.mem_cons_of_mem _ h), if_neg]
        rintro rfl
        exact hu List.mem_cons_self

theorem renameApart_spec {e : Equation} {l r : Term} (wf : s.WellFormed) (he : s.Means e (l, r)) :
    TermM.Ensures w s (renameApart e) (fun e' w' s' => ∃ ρ, s'.Means e' (l.subst ρ, r.subst ρ) ∧
      Renames w.supply w'.supply (sortVars (l.vars ++ r.vars)) ρ) (Drawn w) := by
  rw [renameApart]
  refine .bindLift (Equation.vars_spec wf he) ?_
  rintro _ s₁ wf₁ le₁ ⟨rfl, -⟩
  refine (drawRenaming_spec (sortVars_nodup _) wf₁ Store.binds_empty).bind ?_
  rintro σ w₂ s₂ wf₂ le₂ ⟨ρ, hρ, renames, -⟩
  have he₂ := Equation.means_mono he wf wf₂ (le₁.trans le₂)
  exact .lift (Equation.apply_spec wf₂ hρ he₂) fun e' s₃ _ _ he' => ⟨ρ, he', renames⟩

theorem drawVar_provided {n : Nat} (wf : s.WellFormed) (enough : w.supply.Provides (n + 1)) :
    TermM.Ensures w s drawVar (fun _ w' _ => w'.supply.Provides n) fun _ _ => False := by
  obtain ⟨drawn, rest⟩ := enough
  rw [drawVar]
  refine .bindGet ?_
  rcases hd : w.supply.draw with ⟨_ | _, supply⟩
  · rw [hd] at drawn
    cases drawn
  · rw [hd] at rest
    exact .bindModify (.lift (Store.var_spec wf _) fun _ _ _ _ _ => rest)

theorem drawRenaming_provided {vs : List Var} {n : Nat} (wf : s.WellFormed)
    (enough : w.supply.Provides (vs.length + n)) :
    TermM.Ensures w s (drawRenaming σ vs) (fun _ w' _ => w'.supply.Provides n) fun _ _ => False := by
  induction vs generalizing w s σ with
  | nil =>
      rw [List.length_nil, Nat.zero_add] at enough
      exact .pure wf enough
  | cons v vs ih =>
      rw [List.length_cons, Nat.add_right_comm] at enough
      rw [drawRenaming]
      exact (drawVar_provided wf enough).bind fun _ _ _ wf₁ _ rest => ih wf₁ rest

/-- Renaming apart draws one variable for each of the equation. -/
theorem renameApart_provided {e : Equation} {l r : Term} {n : Nat} (wf : s.WellFormed)
    (he : s.Means e (l, r)) (enough : w.supply.Provides ((sortVars (l.vars ++ r.vars)).length + n)) :
    TermM.Ensures w s (renameApart e) (fun _ w' _ => w'.supply.Provides n) fun _ _ => False := by
  rw [renameApart]
  refine .bindLift (Equation.vars_spec wf he) ?_
  rintro _ s₁ wf₁ le₁ ⟨rfl, -⟩
  have renamed : TermM.Ensures w s₁ _ _ _ := (drawRenaming_provided (σ := .empty) wf₁ enough).and
    (drawRenaming_spec (sortVars_nodup _) wf₁ Store.binds_empty)
  refine (renamed.mono (fun _ _ _ _ _ h => h) fun _ _ _ _ h => h.1).bind ?_
  rintro σ w₂ s₂ wf₂ le₂ ⟨rest, ρ, hρ, -⟩
  have he₂ := Equation.means_mono he wf wf₂ (le₁.trans le₂)
  exact .lift (Equation.apply_spec wf₂ hρ he₂) fun _ _ _ _ _ => rest

end Workspace

/-- Two equations that were renamed one after the other can be instantiated independently. -/
theorem Renames.exists_common {supply supply' supply'' : Supply} {vs ws : List Var}
    {ρ ρ' : Var → Term} (h : Renames supply supply' vs ρ) (h' : Renames supply' supply'' ws ρ')
    (distinct : supply.Distinct) (α β : Var → Term) :
    ∃ κ : Var → Term, (∀ v ∈ vs, (ρ v).subst κ = α v) ∧ (∀ v ∈ ws, (ρ' v).subst κ = β v) ∧
      ∀ sig, (∀ v, (α v).Over sig) → (∀ v, (β v).Over sig) → ∀ v, (κ v).Over sig := by
  classical
  refine ⟨fun x => if hx : ∃ v ∈ vs, ρ v = .var x then α hx.choose else
    if hx : ∃ v ∈ ws, ρ' v = .var x then β hx.choose else .var x, fun v hv => ?_, fun v hv => ?_,
    fun sig hα hβ x => ?_⟩
  · obtain ⟨x, hx, -⟩ := h.fresh v hv
    have here : ∃ v ∈ vs, ρ v = .var x := ⟨v, hv, hx⟩
    rw [hx, Term.subst_var, dif_pos here]
    have same := h.inj distinct here.choose here.choose_spec.1 v hv (here.choose_spec.2.trans hx.symm)
    rw [same]
  · obtain ⟨x, hx, offered, -⟩ := h'.fresh v hv
    have notThere : ¬ ∃ v ∈ vs, ρ v = .var x := by
      rintro ⟨u, hu, eq⟩
      obtain ⟨y, hy, -, gone⟩ := h.fresh u hu
      rw [eq, Term.var.injEq] at hy
      exact gone distinct (hy ▸ offered)
    have here : ∃ v ∈ ws, ρ' v = .var x := ⟨v, hv, hx⟩
    rw [hx, Term.subst_var, dif_neg notThere, dif_pos here]
    have same := h'.inj (h.later.distinct distinct) here.choose here.choose_spec.1 v hv
      (here.choose_spec.2.trans hx.symm)
    rw [same]
  · dsimp only
    split
    · exact hα _
    · split
      · exact hβ _
      · exact .var x

end OrderedCompletion
