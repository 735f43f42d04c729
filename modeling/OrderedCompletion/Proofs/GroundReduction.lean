import OrderedCompletion.Proofs.Confined
import OrderedCompletion.Proofs.Divergence

/-! Normalization by ground rules stores only ground terms that are small enough, and fails only if it takes
too long. -/

namespace OrderedCompletion

open TermM (Guards)

namespace Reducer

variable {G : Gauge} {I J : Term → Prop} {rd : Reducer} {s s' : Store} {st : ReduceState} {R E : Theory}
variable {t : Ref} {a : Term} {e : Equation}

/-- All terms are among those that may be stored, and no stop has been requested. -/
abbrev Tame (J : Term → Prop) (st : ReduceState) (s : Store) : Prop := st.workspace.Tame J s

/-- The action changes nothing, never fails, and leads to a stored term. -/
def Still (st : ReduceState) (s : Store) (x : ReduceM Ref) : Prop :=
  TermM.Ensures st s x (fun out st' s' => out < s.size ∧ st' = st ∧ Store.SameTerms s s') fun _ _ => False

/-- The right side of a ground rule is its only instance. -/
theorem instantiate_still {σ : Subst} {r : Term} (wf : s.WellFormed) (hr : s.Denotes e.rhs r)
    (ground : r.IsGround) (ht : t < s.size) : Still st s (instantiate e σ t) := by
  rw [Still, instantiate]
  refine .bindLift (Store.vars_spec wf (Store.denotes_term ht)) ?_
  rintro _ s₁ wf₁ le₁ ⟨-, same₁⟩
  have hr₁ := hr.mono wf wf₁ le₁
  refine .bindLift (Store.vars_spec wf₁ hr₁) ?_
  rintro _ s₂ wf₂ le₂ ⟨rfl, same₂⟩
  rw [ground, bindClashes, pure_bind]
  refine .lift (Store.apply_ground wf₂ (hr₁.mono wf₁ wf₂ le₂) ground) ?_
  rintro _ s₃ - - ⟨rfl, same₃⟩
  exact ⟨hr.1, rfl, same₁.trans (same₂.trans same₃)⟩

theorem useRule_still (wf : s.WellFormed) (he : e.lhs < s.size) {r : Term} (hr : s.Denotes e.rhs r)
    (ground : r.IsGround) (ht : t < s.size) : Still st s (useRule t e) := by
  rw [Still, useRule]
  refine .bindLift (Store.match?_spec wf (Store.denotes_term he) (Store.denotes_term ht)) ?_
  rintro found s₁ wf₁ le₁ ⟨same₁, -⟩
  have ht₁ : t < s₁.size := same₁.size ▸ ht
  cases found with
  | none => exact .pure wf₁ ⟨ht, rfl, same₁⟩
  | some σ =>
      refine (instantiate_still wf₁ (hr.mono wf wf₁ le₁) ground ht₁).mono ?_ fun _ _ _ _ h => h
      rintro out _ s₂ - - ⟨small, rfl, same₂⟩
      exact ⟨same₁.size ▸ small, rfl, same₁.trans same₂⟩

theorem reduceTop_still (realm : Realm G I J) (wf : s.WellFormed) (among : s.AmongAll I rd.rules)
    (none : rd.equations = []) (ht : t < s.size) : Still st s (rd.reduceTop t) := by
  have rules : Still st s (rd.rules.foldlM useRule t) := by
    refine .foldlM (I := fun _ q st' s' => q < s.size ∧ st' = st ∧ Store.SameTerms s s') wf
      ⟨ht, rfl, .refl s⟩ ?_
    rintro e he - q _ s₁ wf₁ le₁ ⟨small, rfl, same₁⟩
    obtain ⟨l, r, means, -, hr⟩ := among e he
    have means₁ := Equation.means_mono means wf wf₁ le₁
    refine (useRule_still wf₁ means₁.1.1 means₁.2 (realm.ground hr) (same₁.size ▸ small)).mono ?_
      fun _ _ _ _ h => h
    rintro out _ s₂ - - ⟨small₂, rfl, same₂⟩
    exact ⟨same₁.size ▸ small₂, rfl, same₁.trans same₂⟩
  rw [Still, reduceTop, none]
  exact rules.bind fun _ _ _ wf₁ _ h => .pure wf₁ h

/-- Passes are walks over the terms of a realm. -/
theorem walk_within (realm : Realm G I J) (valid : rd.Valid G s R E) (wf : s.WellFormed) :
    rd.Walk s (fun _ => I) (fun a u => G.Reduces R E a u ∧ (G.strict → u = a → G.Inert R E a))
      (Passes G R E) where
  top := fun wf' le hd ha => (valid.walk wf).top wf' le hd (realm.inSig ha)
  later := fun ha _ => ha
  arg := fun ha a mem => realm.arg ha mem
  args := by
    intro _ f as bs ha passed
    have chain : G.Reduces R E (.app f as) (.app f bs) := InContext.chain_args (passed.imp fun _ _ h => h.1)
    have inSig := realm.inSig ha
    exact realm.under ha ⟨chain.inSig inSig, chain.le valid.descends inSig⟩
  passed := by
    intro _ a b ha passes
    have inSig := realm.inSig ha
    exact realm.under ha ⟨passes.1.inSig inSig, passes.1.le valid.descends inSig⟩
  var := fun {supply} _ _ ha use => @Walk.var _ _ _ _ _ (valid.walk wf) supply _ _ (realm.inSig ha) use
  app := fun {supply} _ _ _ _ ha passed use =>
    @Walk.app _ _ _ _ _ (valid.walk wf) supply _ _ _ _ (realm.inSig ha) passed use

theorem safe_within (realm : Realm G I J) (valid : rd.Valid G s R E) (wf : s.WellFormed)
    (among : s.AmongAll I rd.rules) (none : rd.equations = []) :
    rd.Safe s (fun _ => I) (Passes G R E) (Tame J) where
  top := by
    intro st s' t a wf' le hd _ tame
    refine (reduceTop_still realm wf' (among.mono wf wf' le) none hd.1).mono ?_ fun _ _ _ _ h => h
    rintro out _ s'' - - ⟨-, rfl, same⟩
    exact tame.same same
  app := by
    intro st s' f as bs qs wf' ha passed hqs tame
    have new : I (.app f bs) := @Walk.args _ _ _ _ _ (walk_within realm valid wf) default _ _ _ ha passed
    exact (Store.app_confined wf' hqs tame.1 (realm.storable new)).mono fun _ _ _ _ h => ⟨h.1, h.2, tame.2⟩
  note := by
    intro st st' s' tame same
    rwa [Tame, same]

theorem normalize_guards (realm : Realm G I J) (valid : rd.Valid G s R E) (among : s.AmongAll I rd.rules)
    (none : rd.equations = []) (wf : s.WellFormed) (noted : Noted (Passes G R E) st s) (hd : s.Denotes t a)
    (ha : I a) (tame : Tame J st s) : Guards st s (rd.normalize t) (Tame J) Diverged :=
  (walk_within realm valid wf).normalize_guards (safe_within realm valid wf among none) wf noted hd ha tame

theorem normalizeAll_guards {ts : List Ref} {as : List Term} (realm : Realm G I J) (valid : rd.Valid G s R E)
    (among : s.AmongAll I rd.rules) (none : rd.equations = []) (wf : s.WellFormed)
    (noted : Noted (Passes G R E) st s) (hd : s.DenotesAll ts as) (has : ∀ a ∈ as, I a) (tame : Tame J st s) :
    Guards st s (rd.normalizeAll ts) (Tame J) Diverged := by
  induction ts generalizing st s as with
  | nil => exact .pure tame
  | cons t ts ih =>
      cases hd with
      | @cons _ a _ as hd hds =>
          rw [normalizeAll]
          have ha := has a List.mem_cons_self
          refine .bind (normalize_spec valid wf noted hd (realm.inSig ha))
            (normalize_guards realm valid among none wf noted hd ha tame) ?_
          rintro u st₁ s₁ wf₁ le₁ ⟨⟨noted₁, -⟩, -⟩ tame₁
          exact .andThen (ih (valid.mono wf wf₁ le₁) (among.mono wf wf₁ le₁) wf₁ noted₁
            (Store.DenotesAll.mono hds wf wf₁ le₁) (fun a ha => has a (List.mem_cons_of_mem _ ha)) tame₁)
            fun _ _ _ => .pure

end Reducer
end OrderedCompletion
