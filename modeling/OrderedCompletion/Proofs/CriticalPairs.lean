import OrderedCompletion.Proofs.Renaming
import OrderedCompletion.Proofs.Superposition

/-! The critical pairs of two equations: up to the names of variables there is one for each place where the
left sides meet, and superposition finds them all. -/

namespace OrderedCompletion

variable {gt : Term → Term → Prop} {sig : Signature} {gd ab c c' : Term × Term} {p : Position}
variable {ρ ρ' τ τ' θ : Var → Term} {a b d g t u : Term}

/-- Two pairs of terms differ in the names of variables only. -/
def Variants (c c' : Term × Term) : Prop :=
  ∃ κ κ', Term.Restores κ κ' c.1 ∧ Term.Restores κ κ' c.2 ∧ c' = (c.1.subst κ, c.2.subst κ)

/-- Instances that are instances of each other. -/
theorem variants_of_common {κ κ' : Var → Term} (forth : ∀ t ∈ [a, b], (t.subst ρ).subst κ = t.subst ρ')
    (back : ∀ t ∈ [a, b], (t.subst ρ').subst κ' = t.subst ρ) :
    Variants (a.subst ρ, b.subst ρ) (a.subst ρ', b.subst ρ') := by
  have restores : ∀ t ∈ [a, b], Term.Restores κ κ' (t.subst ρ) := fun t ht => by
    rw [Term.Restores, forth t ht, back t ht]
  refine ⟨κ, κ', restores a (by simp), restores b (by simp), ?_⟩
  rw [forth a (by simp), forth b (by simp)]

/-- The sides differ, and the second one is not greater. -/
def Usable (gt : Term → Term → Prop) (c : Term × Term) : Prop := c.1 ≠ c.2 ∧ ¬ gt c.2 c.1

theorem Usable.of_variants (blind : Term.Blind gt) (h : Usable gt c) (variants : Variants c c') :
    Usable gt c' := by
  obtain ⟨κ, κ', left, right, rfl⟩ := variants
  constructor
  · intro same
    apply h.1
    rw [← left, show c.1.subst κ = c.2.subst κ from same, right]
  · intro up
    have back := blind.renamable _ _ κ' κ right.symm up
    rw [left, right] at back
    exact h.2 back

/-- An instance of the left side of `ab` is inside one of the left side of `gd`, at the place of an
application. -/
def Meets (gd ab : Term × Term) (p : Position) (ρ τ : Var → Term) : Prop :=
  ∃ u, gd.1.subtermAt p = some u ∧ u.IsApp ∧ u.subst ρ = ab.1.subst τ

/-- The left sides meet in the most general way. -/
structure MostGeneral (gd ab : Term × Term) (p : Position) (ρ τ : Var → Term) : Prop where
  meets : Meets gd ab p ρ τ
  general : ∀ ρ' τ', Meets gd ab p ρ' τ' → ∃ κ : Var → Term,
    (∀ v ∈ gd.1.vars ++ gd.2.vars, (ρ v).subst κ = ρ' v) ∧
    ∀ v ∈ ab.1.vars ++ ab.2.vars, (τ v).subst κ = τ' v

/-- What two ways of meeting have in common if one of them is the most general one. -/
theorem MostGeneral.exists_common (h : MostGeneral gd ab p ρ τ) (meets : Meets gd ab p ρ' τ') :
    ∃ κ : Var → Term, (∀ t ∈ [gd.1, gd.2], (t.subst ρ).subst κ = t.subst ρ') ∧
      ∀ t ∈ [ab.1, ab.2], (t.subst τ).subst κ = t.subst τ' := by
  obtain ⟨κ, onGd, onAb⟩ := h.general ρ' τ' meets
  refine ⟨κ, fun t ht => ?_, fun t ht => ?_⟩
  · rw [Term.subst_subst]
    refine Term.subst_congr fun v hv => onGd v (List.mem_append.2 ?_)
    rcases List.mem_pair.1 ht with rfl | rfl
    · exact .inl hv
    · exact .inr hv
  · rw [Term.subst_subst]
    refine Term.subst_congr fun v hv => onAb v (List.mem_append.2 ?_)
    rcases List.mem_pair.1 ht with rfl | rfl
    · exact .inl hv
    · exact .inr hv

/-- A critical pair of `ab` into `gd` at a place, by instances of both that are fit for use. -/
def Critical (gt : Term → Term → Prop) (gd ab : Term × Term) (p : Position) (c : Term × Term) : Prop :=
  ∃ ρ τ, MostGeneral gd ab p ρ τ ∧ Usable gt (gd.1.subst ρ, gd.2.subst ρ) ∧
    Usable gt (ab.1.subst τ, ab.2.subst τ) ∧
    c = (gd.2.subst ρ, Term.replaceAt (ab.2.subst τ) (gd.1.subst ρ) p)

/-- Every place has only one critical pair. -/
theorem Critical.variants (h : Critical gt gd ab p c) (h' : Critical gt gd ab p c') : Variants c c' := by
  obtain ⟨ρ, τ, general, -, -, rfl⟩ := h
  obtain ⟨ρ', τ', general', -, -, rfl⟩ := h'
  obtain ⟨κ, forthGd, forthAb⟩ := general.exists_common general'.meets
  obtain ⟨κ', backGd, backAb⟩ := general'.exists_common general.meets
  obtain ⟨u, at_, -, -⟩ := general.meets
  have forth : (Term.replaceAt (ab.2.subst τ) (gd.1.subst ρ) p).subst κ =
      Term.replaceAt (ab.2.subst τ') (gd.1.subst ρ') p := by
    rw [Term.replaceAt_subst (Term.subtermAt_subst at_), forthAb _ (by simp), forthGd _ (by simp)]
  have back : (Term.replaceAt (ab.2.subst τ') (gd.1.subst ρ') p).subst κ' =
      Term.replaceAt (ab.2.subst τ) (gd.1.subst ρ) p := by
    rw [Term.replaceAt_subst (Term.subtermAt_subst at_), backAb _ (by simp), backGd _ (by simp)]
  refine ⟨κ, κ', ?_, ?_, ?_⟩
  · rw [Term.Restores, forthGd _ (by simp), backGd _ (by simp)]
  · rw [Term.Restores, forth, back]
  · rw [forth, forthGd _ (by simp)]

/-- A most general unifier introduces no variables. -/
theorem IsMgu.vars {v w : Var} (mgu : IsMgu a b θ) (hw : w ∈ (θ v).vars) :
    w = v ∨ w ∈ a.vars ∨ w ∈ b.vars := by
  classical
  by_contra other
  rw [not_or, not_or] at other
  obtain ⟨differ, notA, notB⟩ := other
  -- what stands for `w` does not matter for the terms that are unified
  let κ (t : Term) (x : Var) : Term := if x = w then t else θ x
  have outside : ∀ {x : Var} (t : Term), x ≠ w → κ t x = θ x := fun _ other => if_neg other
  have unifies : ∀ t, a.subst (κ t) = b.subst (κ t) := by
    intro t
    rw [Term.subst_congr fun x hx => outside t (ne_of_mem_of_not_mem hx notA),
      Term.subst_congr fun x hx => outside t (ne_of_mem_of_not_mem hx notB)]
    exact mgu.unifies
  have same : ∀ t, (θ v).subst (κ t) = θ v := fun t =>
    (mgu.general (κ t) (unifies t) v).trans (outside t (Ne.symm differ))
  have forced := Term.eq_of_subst_eq ((same (.var w)).trans (same (.missing 0)).symm) w hw
  simp [κ] at forced

/-- Where the left sides of two equations meet, those of the renamed equations can be unified. -/
theorem Meets.exists_unifier {supply mid supply' : Supply} (meets : Meets (g, d) (a, b) p ρ τ)
    (ren : Renames supply mid (sortVars (a.vars ++ b.vars)) τ')
    (ren' : Renames mid supply' (sortVars (g.vars ++ d.vars)) ρ') (distinct : supply.Distinct)
    (at_ : g.subtermAt p = some u) : ∃ κ : Var → Term, (u.subst ρ').subst κ = (a.subst τ').subst κ ∧
      (∀ v ∈ g.vars ++ d.vars, (ρ' v).subst κ = ρ v) ∧ ∀ v ∈ a.vars ++ b.vars, (τ' v).subst κ = τ v := by
  obtain ⟨u', at', -, same⟩ := meets
  obtain rfl := Option.some.inj (at_.symm.trans at')
  obtain ⟨κ, onAb, onGd, -⟩ := ren.exists_common ren' distinct τ ρ
  refine ⟨κ, ?_, fun v hv => onGd v (by simpa using hv), fun v hv => onAb v (by simpa using hv)⟩
  rw [Term.subst_subst, Term.subst_subst, Term.subst_congr fun v hv => onGd v ?_, same,
    Term.subst_congr fun v hv => onAb v ?_]
  · simp [hv]
  · simp [Term.mem_vars_of_subtermAt at_ hv]

/-- What unifies renamed terms shows where the terms themselves meet, in the most general way. -/
theorem mostGeneral_of_isMgu {supply mid supply' : Supply}
    (ren : Renames supply mid (sortVars (a.vars ++ b.vars)) τ')
    (ren' : Renames mid supply' (sortVars (g.vars ++ d.vars)) ρ') (distinct : supply.Distinct)
    (at_ : g.subtermAt p = some u) (app : u.IsApp) (mgu : IsMgu (u.subst ρ') (a.subst τ') θ) :
    MostGeneral (g, d) (a, b) p (fun v => (ρ' v).subst θ) fun v => (τ' v).subst θ := by
  refine ⟨⟨u, at_, app, ?_⟩, fun η ζ meets => ?_⟩
  · rw [← Term.subst_subst, ← Term.subst_subst]
    exact mgu.unifies
  · obtain ⟨κ, unifies, onGd, onAb⟩ := meets.exists_unifier ren ren' distinct at_
    have onward : ∀ t : Term, (t.subst θ).subst κ = t.subst κ := by
      intro t
      rw [Term.subst_subst]
      exact Term.subst_congr fun v _ => mgu.general κ unifies v
    exact ⟨κ, fun v hv => (onward _).trans (onGd v hv), fun v hv => (onward _).trans (onAb v hv)⟩

/-- The sides of an equation are stored, and none of their variables will be drawn. -/
structure Clear (sig : Signature) (supply : Supply) (s : Store) (e : Equation) (c : Term × Term) : Prop where
  means : s.Means e c
  left : c.1.Over sig
  right : c.2.Over sig
  withholdsLeft : supply.Withholds c.1
  withholdsRight : supply.Withholds c.2

theorem Clear.mono {supply supply' : Supply} {s s' : Store} {e : Equation} (h : Clear sig supply s e c)
    (later : supply.Later supply') (wf : s.WellFormed) (wf' : s'.WellFormed) (le : s ≤ s') :
    Clear sig supply' s' e c where
  means := Equation.means_mono h.means wf wf' le
  left := h.left
  right := h.right
  withholdsLeft := h.withholdsLeft.later later
  withholdsRight := h.withholdsRight.later later

/-- What an order answers that goes by a relation. -/
abbrev Says (gt : Term → Term → Prop) (yes : Bool) (a b : Term) : Prop := yes = true ↔ gt a b

section
variable {s s' : Store} {supply supply' : Supply} {pairs : List Equation} {o : Order} {w : Workspace}

/-- The pairs are the critical pairs of two equations, one for each place. -/
structure Enumerates (gt : Term → Term → Prop) (sig : Signature) (supply : Supply) (s : Store)
    (gd ab : Term × Term) (pairs : List Equation) : Prop where
  critical : ∀ e ∈ pairs, ∃ p c, Critical gt gd ab p c ∧ Clear sig supply s e c
  all : ∀ p c, Critical gt gd ab p c → ∃ e ∈ pairs, ∃ c', s.Means e c' ∧ Critical gt gd ab p c'

theorem Enumerates.mono (h : Enumerates gt sig supply s gd ab pairs) (later : supply.Later supply')
    (wf : s.WellFormed) (wf' : s'.WellFormed) (le : s ≤ s') :
    Enumerates gt sig supply' s' gd ab pairs where
  critical := by
    intro e he
    obtain ⟨p, c, critical, clear⟩ := h.critical e he
    exact ⟨p, c, critical, clear.mono later wf wf' le⟩
  all := by
    intro p c critical
    obtain ⟨e, he, c', means, critical'⟩ := h.all p c critical
    exact ⟨e, he, c', Equation.means_mono means wf wf' le, critical'⟩

namespace Superposition

theorem live_iff : Live (Says gt) c θ ↔ Usable gt (c.1.subst θ, c.2.subst θ) := by
  simp [Live, Usable, Says]

theorem idle_iff : Idle (Says gt) c θ ↔ ¬ Usable gt (c.1.subst θ, c.2.subst θ) := by
  simp [Idle, Usable, Says, or_iff_not_imp_left]

/-- The pair of an overlap of renamed equations is one of the equations. -/
theorem Outcome.critical {e : Equation}
    (h : Outcome (Says gt) s (g.subst ρ', d.subst ρ') (a.subst ρ, b.subst ρ) p θ (some e))
    (general : MostGeneral (g, d) (a, b) p (fun v => (ρ' v).subst θ) fun v => (ρ v).subst θ) :
    ∃ c, Critical gt (g, d) (a, b) p c ∧ s.Means e c := by
  obtain ⟨outer, inner, means⟩ := h
  obtain ⟨u, at_, -, -⟩ := general.meets
  rw [live_iff] at outer inner
  rw [Term.replaceAt_subst (Term.subtermAt_subst at_)] at means
  simp only [Term.subst_subst] at outer inner means
  exact ⟨_, ⟨_, _, general, outer, inner, rfl⟩, means⟩

/-- Its variables were drawn before, as those of the renamed equations were. -/
theorem Outcome.clear {e : Equation} (h : Outcome (Says gt) s (g, d) (a, b) p θ (some e))
    (at_ : g.subtermAt p = some u) (mgu : IsMgu u a θ) (inSig : ∀ t ∈ [g, d, a, b], t.Over sig)
    (withheld : ∀ t ∈ [g, d, a, b], supply.Withholds t) :
    Clear sig supply s e (d.subst θ, (Term.replaceAt b g p).subst θ) := by
  have hθ := mgu.inSig sig ((inSig g (by simp)).subtermAt at_) (inSig a (by simp))
  have onward : ∀ t : Term, supply.Withholds t → supply.Withholds (t.subst θ) := by
    intro t ht v hv
    obtain ⟨w, hw, hv⟩ := Term.mem_vars_subst.1 hv
    rcases mgu.vars hv with rfl | inU | inA
    · exact ht v hw
    · exact withheld g (by simp) v (Term.mem_vars_of_subtermAt at_ inU)
    · exact withheld a (by simp) v inA
  refine ⟨h.2.2, (inSig d (by simp)).subst fun v _ => hθ v,
    ((inSig g (by simp)).replaceAt (inSig b (by simp))).subst fun v _ => hθ v, onward d (withheld d (by simp)),
    onward _ fun v hv => ?_⟩
  rcases Term.mem_vars_replaceAt hv with hv | hv
  · exact withheld g (by simp) v hv
  · exact withheld b (by simp) v hv

end Superposition

/-- Renamed terms have only variables that were drawn. -/
theorem Renames.withholds {vs : List Var} (h : Renames supply supply' vs ρ) (distinct : supply.Distinct)
    (known : ∀ v ∈ t.vars, v ∈ vs) : supply'.Withholds (t.subst ρ) := by
  intro x hx
  obtain ⟨v, hv, hx⟩ := Term.mem_vars_subst.1 hx
  obtain ⟨y, same, -, gone⟩ := h.fresh v (known v hv)
  rw [same, Term.mem_vars_var] at hx
  exact hx ▸ gone distinct

open Superposition in
/-- Superposition finds the critical pairs. -/
theorem criticalPairs_exact {gd ab : Equation} (decides : o.Answers sig (Says gt)) (blind : Term.Blind gt)
    (distinct : w.supply.Distinct) (wf : s.WellFormed) (hgd : s.Means gd (g, d)) (hab : s.Means ab (a, b))
    (hg : g.Over sig) (hd : d.Over sig) (ha : a.Over sig) (hb : b.Over sig) :
    TermM.Ensures w s (criticalPairs o gd ab) (fun pairs w' s' => w.supply.Later w'.supply ∧
      Enumerates gt sig w'.supply s' (g, d) (a, b) pairs) fun w' _ => w.supply.Later w'.supply := by
  refine (criticalPairs_crossed decides wf hgd hab hg hd ha hb).mono ?_ fun _ _ _ _ h => h
  rintro pairs w' s' - - ⟨ρ, ρ', mid, ren, ren', crosses, all⟩
  have distinct' := ren.later.distinct distinct
  have named : ∀ v ∈ g.vars, ∃ x, ρ' v = .var x := fun v hv => by
    obtain ⟨x, hx, -⟩ := ren'.fresh v (by simp [hv])
    exact ⟨x, hx⟩
  refine ⟨ren.later.trans ren'.later, fun e he => ?_, fun p c critical => ?_⟩
  · obtain ⟨p, u', θ, at', app', mgu, outcome⟩ := crosses e he
    obtain ⟨u, at_, app, rfl⟩ := Term.exists_subtermAt_of_subst named at' app'
    have general := mostGeneral_of_isMgu ren ren' distinct at_ app mgu
    obtain ⟨c, critical, means⟩ := outcome.critical general
    have clear : Clear sig w'.supply _ _ _ := outcome.clear at' mgu ?_ ?_
    · obtain rfl : c = _ := Equation.means_unique means clear.means
      exact ⟨p, _, critical, clear⟩
    · simp only [List.forall_mem_cons]
      exact ⟨ren'.over hg (by simp +contextual), ren'.over hd (by simp +contextual),
        ren.over ha (by simp +contextual), ren.over hb (by simp +contextual), nofun⟩
    · simp only [List.forall_mem_cons]
      exact ⟨ren'.withholds distinct' (by simp +contextual), ren'.withholds distinct' (by simp +contextual),
        (ren.withholds distinct (by simp +contextual)).later ren'.later,
        (ren.withholds distinct (by simp +contextual)).later ren'.later, nofun⟩
  · obtain ⟨η, ζ, general, outer, inner, rfl⟩ := critical
    obtain ⟨u, at_, app, -⟩ := general.meets
    obtain ⟨κ, unifies, -⟩ := general.meets.exists_unifier ren ren' distinct at_
    obtain ⟨θ, out, mgu, outcome, sub⟩ := all p _ κ (Term.subtermAt_subst at_) app.subst unifies
    have general' := mostGeneral_of_isMgu ren ren' distinct at_ app mgu
    obtain ⟨κ₁, forthGd, forthAb⟩ := general.exists_common general'.meets
    obtain ⟨κ₂, backGd, backAb⟩ := general'.exists_common general.meets
    have outer' := outer.of_variants blind (variants_of_common forthGd backGd)
    have inner' := inner.of_variants blind (variants_of_common forthAb backAb)
    cases out with
    | some e =>
        obtain ⟨c, critical, means⟩ := outcome.critical general'
        exact ⟨e, sub (List.mem_singleton_self e), c, means, critical⟩
    | none =>
        -- what may be used on one most general instance may be used on the other
        exfalso
        rcases outcome with idle | idle
        · rw [idle_iff] at idle
          simp only [Term.subst_subst] at idle
          exact idle outer'
        · rw [idle_iff] at idle
          simp only [Term.subst_subst] at idle
          exact idle inner'

namespace Superposer

variable {sp : Superposer} {donors : List (Equation × Equation)}

/-- The pairs are the critical pairs of stored donors. -/
structure Finds (gt : Term → Term → Prop) (sig : Signature) (supply : Supply) (s : Store)
    (donors : List (Equation × Equation)) (pairs : List Equation) : Prop where
  critical : ∀ e ∈ pairs, ∃ donor ∈ donors, ∃ gd ab p c, s.Means donor.1 gd ∧ s.Means donor.2 ab ∧
    Critical gt gd ab p c ∧ Clear sig supply s e c
  all : ∀ donor ∈ donors, ∀ gd ab p c, s.Means donor.1 gd → s.Means donor.2 ab → Critical gt gd ab p c →
    ∃ e ∈ pairs, ∃ c', s.Means e c' ∧ Critical gt gd ab p c'

theorem superposeAll_exact (decides : o.Answers sig (Says gt)) (blind : Term.Blind gt)
    (distinct : sp.workspace.supply.Distinct) (fresh : ∀ d, sp.seen.contains d = false) (wf : s.WellFormed)
    (has : ∀ donor ∈ donors, s.Has sig donor.1 ∧ s.Has sig donor.2) :
    TermM.Ensures sp s (superposeAll o donors)
      (fun pairs sp' s' => sp.workspace.supply.Later sp'.workspace.supply ∧
        Finds gt sig sp'.workspace.supply s' donors pairs)
      fun sp' _ => sp.workspace.supply.Later sp'.workspace.supply := by
  let P (donor : Equation × Equation) (pairs : List Equation) (supply : Supply) (s' : Store) : Prop :=
    ∃ gd ab, s'.Means donor.1 gd ∧ s'.Means donor.2 ab ∧ Enumerates gt sig supply s' gd ab pairs
  have lasts : Lasts P := by
    rintro donor pairs supply supply' s s' ⟨gd, ab, hgd, hab, enumerates⟩ later wf wf' le
    exact ⟨gd, ab, Equation.means_mono hgd wf wf' le, Equation.means_mono hab wf wf' le,
      enumerates.mono later wf wf' le⟩
  refine (superposeAll_collects lasts (fun donor hdonor {w s'} wf' le later => ?_) wf).mono ?_
    fun _ _ _ _ h => h
  · obtain ⟨⟨g, d, hgd, hg, hd⟩, a, b, hab, ha, hb⟩ := has donor hdonor
    refine (criticalPairs_exact decides blind (later.distinct distinct) wf' (Equation.means_mono hgd wf wf' le)
      (Equation.means_mono hab wf wf' le) hg hd ha hb).mono ?_ fun _ _ _ _ h => h
    rintro pairs w₁ s₁ wf₁ le₁ ⟨later₁, enumerates⟩
    exact ⟨later₁, _, _, Equation.means_mono hgd wf wf₁ (le.trans le₁),
      Equation.means_mono hab wf wf₁ (le.trans le₁), enumerates⟩
  · rintro out sp' s' - - collects
    refine ⟨collects.later, fun e he => ?_, fun donor hdonor gd ab p c hgd hab critical => ?_⟩
    · obtain ⟨donor, hdonor, pairs, ⟨gd, ab, hgd, hab, enumerates⟩, mem⟩ :=
        (collects.arise e he).resolve_left List.not_mem_nil
      obtain ⟨p, c, critical, clear⟩ := enumerates.critical e mem
      exact ⟨donor, hdonor, gd, ab, p, c, hgd, hab, critical, clear⟩
    · obtain ⟨pairs, ⟨gd', ab', hgd', hab', enumerates⟩, sub⟩ :=
        (collects.all donor hdonor).resolve_left (by simp [fresh])
      obtain rfl : gd = gd' := Equation.means_unique hgd hgd'
      obtain rfl : ab = ab' := Equation.means_unique hab hab'
      obtain ⟨e, he, c', means, critical'⟩ := enumerates.all p c critical
      exact ⟨e, sub he, c', means, critical'⟩

end Superposer

end
end OrderedCompletion
