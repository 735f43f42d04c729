import OrderedCompletion.Proofs.EarlyBuilding
import OrderedCompletion.Proofs.Growth
import OrderedCompletion.Proofs.Unification

/-! What is found out about terms that are clear, by matching and unification among others, does not depend on
what was asked early. -/

namespace OrderedCompletion

namespace Store

variable {early : Set Ref} {s s' s₀ s₁ s₂ : Store} {σ : Subst} {r q a : Ref} {v : Var} {pair : Ref × Ref}
variable {pairs : List (Ref × Ref)}

/-- No reference that was asked about early has come to stand for a term with variables. -/
def Calm (early : Set Ref) (s : Store) : Prop := ∀ r ∈ early, r < s.size → (s.term r).IsGround

theorem Calm.clear (h : Calm early s) (wf : s.WellFormed) (hr : r < s.size) : s.Clear early r :=
  fun _ q found asked => h q asked (subtermAt_lt_size wf hr found)

theorem Calm.of_le (h : Calm early s') (wf : s.WellFormed) (wf' : s'.WellFormed) (le : s ≤ s') : Calm early s :=
  fun r asked hr => wf.below.term_of_le wf'.below le hr ▸ h r asked (Nat.lt_of_lt_of_le hr (size_le_of_le le))

/-- All stores with the terms of `s₀` and reliable notes only take notes, and what they answer has the property.
It is one answer for all of them under the condition. -/
structure Tells {α : Type} (early : Set Ref) (s₀ : Store) (clear : Prop) (x : StoreM α) (P : α → Prop) : Prop where
  gives : Gives early s₀ x P s₀
  one : clear → ∃ a, P a ∧ Gives early s₀ x (· = a) s₀

variable {clear : Prop}

section
variable {α β : Type} {x : StoreM α} {g : α → StoreM β} {P : α → Prop} {R : β → Prop} {b : α}

theorem Tells.pure (h : P b) : Tells early s₀ clear (Pure.pure b) P := ⟨.pure h, fun _ => ⟨b, h, .pure rfl⟩⟩

theorem Tells.imp {more : Prop} (hx : Tells early s₀ clear x P) (h : more → clear) : Tells early s₀ more x P :=
  ⟨hx.gives, fun given => hx.one (h given)⟩

theorem Tells.bind (hx : Tells early s₀ clear x P) (hg : ∀ a, P a → Tells early s₀ clear (g a) R) :
    Tells early s₀ clear (x >>= g) R where
  gives := hx.gives.bind fun a ha => (hg a ha).gives
  one := by
    intro given
    obtain ⟨a, ha, hx⟩ := hx.one given
    obtain ⟨b, hb, hg⟩ := (hg a ha).one given
    refine ⟨b, hb, hx.bind ?_⟩
    rintro _ rfl
    exact hg

theorem Tells.bindGet {g : Store → StoreM β} {y : StoreM β} (same : ∀ s, Reliable early s₀ s → g s = y)
    (hy : Tells early s₀ clear y R) : Tells early s₀ clear (MonadState.get >>= g) R where
  gives := .bindGet fun s hs => (same s hs).symm ▸ hy.gives
  one := by
    intro given
    obtain ⟨b, hb, hy⟩ := hy.one given
    exact ⟨b, hb, .bindGet fun s hs => (same s hs).symm ▸ hy⟩

theorem Tells.anyM {as : List α} {p : α → StoreM Bool} (h : ∀ a ∈ as, Tells early s₀ clear (p a) fun _ => True) :
    Tells early s₀ clear (as.anyM p) fun _ => True := by
  induction as with
  | nil => exact .pure trivial
  | cons a as ih =>
      rw [List.anyM]
      refine (h a List.mem_cons_self).bind fun yes _ => ?_
      cases yes with
      | true => exact .pure trivial
      | false => exact ih fun a' ha => h a' (List.mem_cons_of_mem a ha)

end

section
variable {α β : Type} {x : OptionT StoreM α} {g : α → OptionT StoreM β} {R : Option β → Prop}

theorem Tells.bindOption {P : α → Prop} (hx : Tells early s₀ clear x.run fun o => ∀ a ∈ o, P a)
    (hg : ∀ a, P a → Tells early s₀ clear (g a).run R) (nothing : R none) :
    Tells early s₀ clear (x >>= g).run R := by
  rw [OptionT.run_bind, Option.elimM]
  refine hx.bind fun o ho => ?_
  cases o with
  | none => exact .pure nothing
  | some a => exact hg a (ho a rfl)

theorem Tells.bindLift {y : StoreM α} {P : α → Prop} (hy : Tells early s₀ clear y P)
    (hg : ∀ a, P a → Tells early s₀ clear (g a).run R) :
    Tells early s₀ clear ((liftM y : OptionT StoreM α) >>= g).run R := Tells.bind hy hg

theorem Tells.bindThe {g : Store → OptionT StoreM β} {y : OptionT StoreM β}
    (same : ∀ s, Reliable early s₀ s → g s = y) (hy : Tells early s₀ clear y.run R) :
    Tells early s₀ clear (getThe Store >>= g).run R := by
  change Tells early s₀ clear (MonadState.get >>= fun s => (g s).run) R
  exact .bindGet (fun s hs => congrArg OptionT.run (same s hs)) hy

theorem Tells.bindGuard {p : Prop} [Decidable p] {g : Unit → OptionT StoreM β} (nothing : R none)
    (hg : p → Tells early s₀ clear (g ()).run R) :
    Tells early s₀ clear ((guard p : OptionT StoreM Unit) >>= g).run R := by
  by_cases hp : p
  · rw [guard, if_pos hp, pure_bind]
    exact hg hp
  · rw [guard, if_neg hp]
    exact .pure nothing

theorem Tells.foldlM {as : List α} {b : β} {g : β → α → OptionT StoreM β} {P : β → Prop} (hb : P b)
    (h : ∀ a ∈ as, ∀ b, P b → Tells early s₀ clear (g b a).run fun o => ∀ c ∈ o, P c) :
    Tells early s₀ clear (as.foldlM g b).run fun o => ∀ c ∈ o, P c := by
  induction as generalizing b with
  | nil =>
      refine .pure fun c hc => ?_
      cases hc
      exact hb
  | cons a as ih =>
      rw [List.foldlM_cons]
      refine Tells.bindOption (h a List.mem_cons_self b hb) (fun c hc => ?_) nofun
      exact ih hc fun a' ha => h a' (List.mem_cons_of_mem a ha)

end

theorem isGround_tells (wf : s₀.WellFormed) (asked : s₀.size ≤ r → r ∈ early) :
    Tells early s₀ (s₀.Clear early r) (isGround r) fun _ => True where
  gives := (isGround_gives wf asked).mono fun _ _ => trivial
  one := fun clear => ⟨_, trivial, (isGround_gives wf asked).mono fun _ right => right clear⟩

theorem matchWithin_tells {n : Nat} (wf : s₀.WellFormed) (asked : s₀.size ≤ pair.1 → pair.1 ∈ early) :
    Tells early s₀ (s₀.Clear early pair.1) (matchWithin n σ pair).run fun o => ∀ σ' ∈ o, True := by
  induction n generalizing σ pair with
  | zero => exact .pure nofun
  | succ n ih =>
      obtain ⟨p, t⟩ := pair
      rw [matchWithin]
      refine (isGround_tells wf asked).bindLift fun ground _ => ?_
      split
      · exact .bindGuard nofun fun _ => .pure fun _ _ => trivial
      · refine .bindThe (fun s hs => by rw [hs.same.node?, hs.same.node?]) ?_
        split
        · split
          · exact .bindGuard nofun fun _ => .pure fun _ _ => trivial
          · exact .pure fun _ _ => trivial
        · rename_i f ss g ts hnode _
          refine .bindGuard nofun fun _ => .foldlM trivial fun pr hpr σ' _ => ?_
          have arg := (List.of_mem_zip (List.mem_reverse.1 hpr)).1
          have small := Nat.lt_trans (wf.below hnode _ arg) (lt_size_of_node ⟨_, hnode⟩)
          refine (ih fun unknown => ?_).imp fun clear => clear.arg hnode arg
          exact absurd small (Nat.not_lt_of_le unknown)
        · exact .pure nofun
        · exact .pure nofun

theorem matchPairs?_tells (wf : s₀.WellFormed) (asked : ∀ pair ∈ pairs, s₀.size ≤ pair.1 → pair.1 ∈ early) :
    Tells early s₀ (∀ pair ∈ pairs, s₀.Clear early pair.1) (matchPairs? pairs).run fun o => ∀ σ ∈ o, True := by
  refine .bindThe (fun s hs => by rw [bound, hs.same.size]) (.foldlM trivial fun pair hpair σ _ => ?_)
  have given := List.mem_reverse.1 hpair
  exact (matchWithin_tells wf (asked pair given)).imp fun clear => clear pair given

theorem Knows.follow (knows : s.Knows σ) (hr : r < s.size) : s.follow σ r < s.size := by
  suffices gen : ∀ n, s.followUpTo σ n r < s.size from gen _
  intro n
  induction n generalizing r with
  | zero => exact hr
  | succ n ih =>
      rw [followUpTo]
      split
      · split
        · rename_i q hq
          exact ih (knows _ q hq)
        · exact hr
      · exact hr
      · exact hr

section
variable (wf : s₀.WellFormed)
include wf

theorem reachesWithin_tells {n : Nat} (hr : r < s₀.size) :
    Tells early s₀ (Calm early s₀) (reachesWithin σ v n r) fun _ => True := by
  induction n generalizing r with
  | zero => exact .pure trivial
  | succ n ih =>
      rw [reachesWithin]
      have ground : Tells early s₀ (Calm early s₀) (isGround r) fun _ => True :=
        (isGround_tells wf fun unknown => absurd hr (Nat.not_lt_of_le unknown)).imp fun calm => calm.clear wf hr
      refine ground.bind fun ground _ => ?_
      split
      · exact .pure trivial
      · refine .bindGet (fun s hs => by rw [hs.same.follow, hs.same.node?]) ?_
        split
        · exact .pure trivial
        · rename_i f args hnode
          refine .anyM fun a ha => ih ?_
          exact Nat.lt_trans (wf.below hnode a (List.mem_reverse.1 ha)) (lt_size_of_node ⟨_, hnode⟩)
        · exact .pure trivial

theorem unifyWithin_tells {n : Nat} (knows : s₀.Knows σ) (ha : pair.1 < s₀.size) (hb : pair.2 < s₀.size) :
    Tells early s₀ (Calm early s₀) (unifyWithin n σ pair).run fun o => ∀ σ' ∈ o, s₀.Knows σ' := by
  induction n generalizing σ pair with
  | zero => exact .pure nofun
  | succ n ih =>
      obtain ⟨a, b⟩ := pair
      rw [unifyWithin]
      refine .bindThe (fun s hs => by simp only [hs.same.follow, hs.same.node?]; rfl) ?_
      have small : s₀.follow σ a < s₀.size := knows.follow ha
      have small' : s₀.follow σ b < s₀.size := knows.follow hb
      have bound : ∀ v r, r < s₀.size → ∀ σ' ∈ some (σ.bind v r), s₀.Knows σ' := by
        rintro v r hr _ ⟨⟩
        exact knows.bind hr
      have bindUnless : ∀ v r, r < s₀.size → Tells early s₀ (Calm early s₀) (do
          if ← reachesWithin σ v (n + 1) r then failure
          return σ.bind v r : OptionT StoreM Subst).run fun o => ∀ σ' ∈ o, s₀.Knows σ' := by
        intro v r hr
        refine (reachesWithin_tells wf hr).bindLift fun reached _ => ?_
        split
        · exact .pure nofun
        · exact .pure (bound v r hr)
      split
      · refine .pure ?_
        rintro _ ⟨⟩
        exact knows
      · split
        · refine .pure ?_
          split
          · exact bound _ _ small
          · exact bound _ _ small'
        · exact bindUnless _ _ small'
        · exact bindUnless _ _ small
        · rename_i f ss g ts hnode hnode'
          refine .bindGuard nofun fun _ => .foldlM knows fun pr hpr σ' knows' => ?_
          obtain ⟨left, right⟩ := List.of_mem_zip (List.mem_reverse.1 hpr)
          exact ih knows' (Nat.lt_trans (wf.below hnode _ left) small)
            (Nat.lt_trans (wf.below hnode' _ right) small')
        · exact .pure nofun
        · exact .pure nofun

end

/-- The action leads from `s₀` to a later store, and all stores with the terms of `s₀` and reliable notes answer as
`s₀` does and go on with the terms that it then has. -/
structure Undisturbed {α : Type} (early : Set Ref) (s₀ : Store) (x : StoreM α) : Prop where
  wellFormed : (x s₀).2.WellFormed
  le : s₀ ≤ (x s₀).2
  gives : Gives early s₀ x (· = (x s₀).1) (x s₀).2

section
variable {α β : Type} {x : StoreM α} {g : α → StoreM β} {b : α}

theorem Undisturbed.pure (wf : s₀.WellFormed) : Undisturbed early s₀ (Pure.pure b) := ⟨wf, le_rfl, .pure rfl⟩

theorem Undisturbed.bind (hx : Undisturbed early s₀ x) (hg : Undisturbed early (x s₀).2 (g (x s₀).1)) :
    Undisturbed early s₀ (x >>= g) where
  wellFormed := hg.wellFormed
  le := hx.le.trans hg.le
  gives := by
    refine hx.gives.bind ?_
    rintro _ rfl
    exact hg.gives

theorem Undisturbed.bindGet {g : Store → StoreM β} (same : ∀ s, Reliable early s₀ s → g s = g s₀)
    (h : Undisturbed early s₀ (g s₀)) : Undisturbed early s₀ (MonadState.get >>= g) where
  wellFormed := h.wellFormed
  le := h.le
  gives := .bindGet fun s hs => (same s hs).symm ▸ h.gives

theorem Undisturbed.map {h : α → β} (hx : Undisturbed early s₀ x) : Undisturbed early s₀ (h <$> x) where
  wellFormed := hx.wellFormed
  le := hx.le
  gives := fun s hs => ⟨congrArg h (hx.gives s hs).1, (hx.gives s hs).2⟩

/-- The store itself goes on with reliable notes. -/
theorem Undisturbed.self (hx : Undisturbed early s₀ x) (self : Reliable early s₀ s₀) :
    Reliable early (x s₀).2 (x s₀).2 := (hx.gives s₀ self).2

theorem Gives.undisturbed {Q : α → Store → Prop} (hx : Gives early s₀ x (· = b) s₁) (self : Reliable early s₀ s₀)
    (spec : s₀.Ensures x Q) : Undisturbed early s₀ x where
  wellFormed := spec.1
  le := spec.2.1
  gives := by
    intro s hs
    obtain ⟨answer, reliable⟩ := hx s hs
    obtain ⟨answer₀, reliable₀⟩ := hx s₀ self
    exact ⟨answer.trans answer₀.symm, reliable.rebase reliable₀.same⟩

theorem Tells.undisturbed {P : α → Prop} {Q : α → Store → Prop} (hx : Tells early s₀ clear x P) (given : clear)
    (self : Reliable early s₀ s₀) (spec : s₀.Ensures x Q) : Undisturbed early s₀ x := by
  obtain ⟨a, -, hx⟩ := hx.one given
  exact hx.undisturbed self spec

end

theorem intern_undisturbed (wf : s₀.WellFormed) {node : Node} (admits : s₀.Admits node) :
    Undisturbed early s₀ (intern node) where
  wellFormed := (intern_spec wf node admits).1
  le := (intern_spec wf node admits).2.1
  gives := intern_gives wf admits

theorem Knows.later (knows : s.Knows σ) (le : s ≤ s') : s'.Knows σ :=
  fun v q hv => Nat.lt_of_lt_of_le (knows v q hv) (size_le_of_le le)

theorem applyUpTo_known {n : Nat} (wf : s.WellFormed) (knows : s.Knows σ) (hr : r < s.size) :
    s.Ensures (applyUpTo σ n r) fun out s' => out < s'.size := by
  induction n generalizing s r with
  | zero => exact .pure wf hr
  | succ n ih =>
      rw [applyUpTo]
      refine (apply_spec wf knows.binds (denotes_term hr)).bind fun out s₁ wf₁ le₁ hout => ?_
      split
      · exact .pure wf₁ (Nat.lt_of_lt_of_le hr (size_le_of_le le₁))
      · exact ih wf₁ (knows.later le₁) hout.1

/-- Here variables are asked for of terms that were just built, so all that were asked about early have to be
ground. -/
theorem applyUpTo_undisturbed {n : Nat} (wf : s₀.WellFormed) (self : Reliable early s₀ s₀) (knows : s₀.Knows σ)
    (hr : r < s₀.size) (calm : Calm early (applyUpTo σ n r s₀).2) : Undisturbed early s₀ (applyUpTo σ n r) := by
  induction n generalizing s₀ r with
  | zero => exact .pure wf
  | succ n ih =>
      have spec := apply_spec wf knows.binds (denotes_term hr)
      obtain ⟨wf', le', -⟩ := applyUpTo_known (n := n + 1) wf knows hr
      have clear := (calm.of_le wf wf' le').clear wf hr
      have first := Gives.undisturbed (apply_builds wf knows.binds hr clear) self spec
      obtain ⟨wf₁, le₁, hout⟩ := spec
      rw [applyUpTo] at calm ⊢
      refine first.bind ?_
      change Calm early ((if (apply σ r s₀).1 = r then Pure.pure r else applyUpTo σ n (apply σ r s₀).1 :
        StoreM Ref) (apply σ r s₀).2).2 at calm
      split
      · exact .pure wf₁
      · rename_i moved
        rw [if_neg moved] at calm
        exact ih wf₁ (first.self self) (knows.later le₁) hout.1 calm

theorem applyAll_known {bs : List (Var × Ref)} (wf : s.WellFormed) (knows : s.Knows σ)
    (known : ∀ b ∈ bs, b.2 < s.size) :
    s.Ensures (bs.mapM fun b => return (b.1, ← applyDeep σ b.2)) fun _ _ => True := by
  refine (Ensures.mapM (I := fun s' => s ≤ s') (Q := fun _ _ _ => True) wf le_rfl (fun _ _ _ _ _ _ _ _ => trivial)
    fun b hb s₁ wf₁ le₁ _ => ?_).mono fun _ _ _ _ _ => trivial
  have small := Nat.lt_of_lt_of_le (known b hb) (size_le_of_le le₁)
  exact (applyUpTo_known wf₁ (knows.later le₁) small).bind fun out s₂ wf₂ le₂ _ => .pure wf₂ ⟨le₁.trans le₂, trivial⟩

theorem applyAll_undisturbed {bs : List (Var × Ref)} (wf : s₀.WellFormed) (self : Reliable early s₀ s₀)
    (knows : s₀.Knows σ) (known : ∀ b ∈ bs, b.2 < s₀.size)
    (calm : Calm early (bs.mapM (fun b => return (b.1, ← applyDeep σ b.2) : _ → StoreM (Var × Ref)) s₀).2) :
    Undisturbed early s₀ (bs.mapM fun b => return (b.1, ← applyDeep σ b.2)) := by
  induction bs generalizing s₀ with
  | nil => exact .pure wf
  | cons b bs ih =>
      have small := known b List.mem_cons_self
      obtain ⟨wf₁, le₁, -⟩ := applyUpTo_known (n := σ.bindings.length + 1) wf knows small
      have knows₁ := knows.later le₁
      have known₁ : ∀ c ∈ bs, c.2 < (applyDeep σ b.2 s₀).2.size := fun c hc =>
        Nat.lt_of_lt_of_le (known c (List.mem_cons_of_mem b hc)) (size_le_of_le le₁)
      obtain ⟨wf₂, le₂, -⟩ := applyAll_known wf₁ knows₁ known₁
      rw [List.mapM_cons] at calm ⊢
      have first := applyUpTo_undisturbed wf self knows small (calm.of_le wf₁ wf₂ le₂)
      refine Undisturbed.bind (first.bind (.pure wf₁)) ?_
      exact (ih wf₁ (first.self self) knows₁ known₁ calm).bind (.pure wf₂)

section
variable {ε α β : Type}

theorem Undisturbed.bindThe {g : Store → OptionT StoreM β} (same : ∀ s, Reliable early s₀ s → g s = g s₀)
    (h : Undisturbed early s₀ (g s₀).run) : Undisturbed early s₀ (getThe Store >>= g).run := by
  change Undisturbed early s₀ (MonadState.get >>= fun s => (g s).run)
  exact .bindGet (fun s hs => congrArg OptionT.run (same s hs)) h

theorem Undisturbed.bindOption {x : OptionT StoreM α} {g : α → OptionT StoreM β} (hx : Undisturbed early s₀ x.run)
    (hg : ∀ a, (x.run s₀).1 = some a → Undisturbed early (x.run s₀).2 (g a).run) :
    Undisturbed early s₀ (x >>= g).run := by
  rw [OptionT.run_bind, Option.elimM]
  refine hx.bind ?_
  cases found : (x.run s₀).1 with
  | none => exact .pure hx.wellFormed
  | some a => exact hg a found

theorem Undisturbed.bindTheExcept {g : Store → ExceptT ε StoreM β} (same : ∀ s, Reliable early s₀ s → g s = g s₀)
    (h : Undisturbed early s₀ (g s₀).run) : Undisturbed early s₀ (getThe Store >>= g).run := by
  change Undisturbed early s₀ (MonadState.get >>= fun s => (g s).run)
  exact .bindGet (fun s hs => congrArg ExceptT.run (same s hs)) h

theorem Undisturbed.bindExcept {x : ExceptT ε StoreM α} {g : α → ExceptT ε StoreM β}
    (hx : Undisturbed early s₀ x.run)
    (hg : ∀ a, (x.run s₀).1 = .ok a → Undisturbed early (x.run s₀).2 (g a).run) :
    Undisturbed early s₀ (x >>= g).run := by
  rw [ExceptT.run_bind]
  refine hx.bind ?_
  cases outcome : (x.run s₀).1 with
  | error e => exact .pure hx.wellFormed
  | ok a => exact hg a outcome

end

section
variable {α β : Type} {x : OptionT StoreM α} {g : α → OptionT StoreM β} {a : α}

theorem run_getThe_bindOption {g : Store → OptionT StoreM β} : (getThe Store >>= g).run s = (g s).run s := rfl

theorem run_bind_none (h : x.run s = (none, s')) : (x >>= g).run s = (none, s') := by
  rw [OptionT.run_bind, Option.elimM]
  change ((x.run s).1.elim (Pure.pure none) fun a => (g a).run) (x.run s).2 = _
  rw [h]
  rfl

theorem run_bind_some (h : x.run s = (some a, s')) : (x >>= g).run s = (g a).run s' := by
  rw [OptionT.run_bind, Option.elimM]
  change ((x.run s).1.elim (Pure.pure none) fun a => (g a).run) (x.run s).2 = _
  rw [h]
  rfl

end

theorem resolve_undisturbed (wf : s₀.WellFormed) (self : Reliable early s₀ s₀) (knows : s₀.Knows σ)
    (calm : Calm early (resolve σ s₀).2) : Undisturbed early s₀ (resolve σ) := by
  have known : ∀ b ∈ σ.walk, b.2 < s₀.size := fun b hb => knows _ _ (Subst.mem_walk.1 hb)
  obtain ⟨wf₁, -, -⟩ := applyAll_known wf knows known
  rw [resolve] at calm ⊢
  refine (applyAll_undisturbed wf self knows known calm).bind (.bindGet (fun s hs => ?_) (.pure wf₁))
  simp only [hs.same.node?]

theorem unifyPairs?_undisturbed (wf : s₀.WellFormed) (self : Reliable early s₀ s₀)
    (known : ∀ pair ∈ pairs, pair.1 < s₀.size ∧ pair.2 < s₀.size)
    (calm : Calm early ((unifyPairs? pairs).run s₀).2) : Undisturbed early s₀ (unifyPairs? pairs).run := by
  have stored : s₀.Hereditary fun t => ∃ r, s₀.Denotes r t := ⟨fun h ht => Denotes.exists_arg wf h ht, id⟩
  have inputs : ∀ pair ∈ pairs, (∃ r, s₀.Denotes r (s₀.term pair.1)) ∧ ∃ r, s₀.Denotes r (s₀.term pair.2) :=
    fun pair hpair => ⟨⟨_, denotes_term (known pair hpair).1⟩, ⟨_, denotes_term (known pair hpair).2⟩⟩
  have spec := unifyAll_spec wf stored known inputs le_rfl
  have calm₀ := calm.of_le wf (unifyPairs?_spec wf known).1 (unifyPairs?_spec wf known).2.1
  have tells : Tells early s₀ (Calm early s₀)
      (pairs.reverse.foldlM (unifyWithin (s₀.bound * s₀.bound)) .empty).run fun o => ∀ σ ∈ o, s₀.Knows σ := by
    refine .foldlM (fun v q hv => by cases hv) fun pair hpair σ knows => ?_
    obtain ⟨left, right⟩ := known pair (List.mem_reverse.1 hpair)
    exact unifyWithin_tells wf knows left right
  have first := tells.undisturbed calm₀ self spec
  rw [unifyPairs?] at calm ⊢
  refine .bindThe (fun s hs => by rw [bound, hs.same.size]; rfl) (first.bindOption fun σ found => ?_)
  obtain ⟨knows, reliable⟩ := tells.gives s₀ self
  have knows₁ := (knows σ found).later reliable.same.le
  rw [run_getThe_bindOption, run_bind_some (Prod.ext found rfl)] at calm
  exact (resolve_undisturbed first.wellFormed (first.self self) knows₁ calm).map

theorem replaceAt_undisturbed {p : Position} {u : Ref} (h : s₀.Faithful) (hr : r < s₀.size) (hu : u < s₀.size) :
    Undisturbed early s₀ (replaceAt r p u).run := by
  have wf := h.toWellFormed
  induction p generalizing r with
  | nil =>
      rw [replaceAt]
      exact .pure wf
  | cons i p ih =>
      rw [replaceAt]
      refine .bindTheExcept (fun s hs => by rw [hs.same.node?]) ?_
      split
      · rename_i f args hnode
        split
        · rename_i a ha
          have small := Nat.lt_trans (wf.below hnode a (List.mem_of_getElem? ha)) hr
          obtain ⟨wf₁, le₁, -, known⟩ := replaceAt_faithful (p := p) h small hu
          have inner : Undisturbed early s₀
              ((replaceAt a p u).adapt fun _ => TermError.invalidPosition (i :: p)).run :=
            (ih small).map
          refine inner.bindExcept fun out outcome => ?_
          have found : ((replaceAt a p u).run s₀).1 = .ok out := by
            change ((replaceAt a p u).run s₀).1.mapError _ = .ok out at outcome
            cases done : ((replaceAt a p u).run s₀).1 with
            | error e =>
                rw [done] at outcome
                cases outcome
            | ok q =>
                rw [done] at outcome
                exact outcome
          have admits : ((replaceAt a p u).run s₀).2.Admits (.app f (args.set i out)) := by
            intro b hb
            rcases List.mem_or_eq_of_mem_set hb with old | rfl
            · exact Nat.lt_of_lt_of_le (Nat.lt_trans (wf.below hnode b old) hr) (size_le_of_le le₁)
            · exact known _ found
          exact (intern_undisturbed wf₁ admits).map
        · exact .pure wf
      · exact .pure wf
      · exact .pure wf

end Store
end OrderedCompletion
