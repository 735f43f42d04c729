import OrderedCompletion.Proofs.Calls

/-! What bounds a call is of no concern to most of its parts. What comes to an end with some fuel comes to the same
end with more. -/

namespace OrderedCompletion

/-- The same context with other fuel. -/
abbrev Context.withFuel (ctx : Context) (n : Nat) : Context := { ctx with fuel := n }

/-- The same context with another clock. -/
abbrev Context.timed (ctx : Context) (clock : Nat → Nat) : Context := { ctx with elapsed := clock }

/-- The same context with other fuel and another clock. -/
abbrev Context.bounded (ctx : Context) (n : Nat) (clock : Nat → Nat) : Context :=
  { ctx with fuel := n, elapsed := clock }

namespace Engine

variable {ctx : Context} {α β : Type} {m n : Nat} {clock : Nat → Nat}

/-- The second action does what the first one does, unless the first one runs out of fuel. -/
def Extends (x y : EngineM α) : Prop := ∀ e s, (x e s).1.1 ≠ .error .outOfFuel → y e s = x e s

section
variable {x y : EngineM α} {f g : α → EngineM β}

theorem Extends.refl (x : EngineM α) : Extends x x := fun _ _ _ => rfl

theorem Extends.bind (hx : Extends x y) (hf : ∀ a, Extends (f a) (g a)) : Extends (x >>= f) (y >>= g) := by
  intro e s fed
  rw [TermM.bind_apply] at fed ⊢
  rw [TermM.bind_apply]
  cases outcome : (x e s).1.1 with
  | ok a =>
      rw [outcome] at fed
      rw [hx e s (by simp [outcome]), outcome]
      exact hf a _ _ fed
  | error halt =>
      rw [outcome] at fed
      have inner : (x e s).1.1 ≠ .error .outOfFuel := by
        rw [outcome]
        rintro ⟨⟩
        exact fed rfl
      rw [hx e s inner, outcome]

theorem Extends.poison (h : Extends x y) : Extends (poisonOnError x) (poisonOnError y) := by
  intro e s fed
  have inner : (x e s).1.1 ≠ .error .outOfFuel := by
    intro spent
    rw [poisonOnError_apply, spent] at fed
    exact fed rfl
  rw [poisonOnError_apply, poisonOnError_apply, h e s inner]

end

section
variable (ctx n clock)

theorem findOrientable_bounded (es : List Equation) :
    findOrientable (ctx.bounded n clock) es = findOrientable ctx es := by
  induction es with
  | nil => rfl
  | cons eq es ih =>
      rw [findOrientable, findOrientable, ih]
      rfl

theorem pick_bounded : pick (ctx.bounded n clock) = pick ctx := by
  simp only [pick, findOrientable_bounded]
  rfl

theorem collapseBy_bounded (ab : Equation) (rules : List Equation) :
    collapseBy (ctx.bounded n clock) ab rules = collapseBy ctx ab rules := by
  induction rules with
  | nil => rfl
  | cons rule rules ih =>
      rw [collapseBy, collapseBy, ih]
      rfl

theorem addRule_bounded (eq ab : Equation) : addRule (ctx.bounded n clock) eq ab = addRule ctx eq ab := by
  simp only [addRule, collapseBy_bounded]
  rfl

theorem findComposable_bounded (before rules : List Equation) :
    findComposable (ctx.bounded n clock) before rules = findComposable ctx before rules := by
  induction rules generalizing before with
  | nil => rfl
  | cons rule rules ih =>
      rw [findComposable, findComposable, ih]
      rfl

theorem compose_bounded (m : Nat) : compose (ctx.bounded n clock) m = compose ctx m := by
  induction m with
  | zero => rfl
  | succ m ih =>
      simp only [compose, findComposable_bounded, ih]

theorem partitionOrientable_bounded (es : List Equation) :
    partitionOrientable (ctx.bounded n clock) es = partitionOrientable ctx es := by
  induction es with
  | nil => rfl
  | cons eq es ih =>
      rw [partitionOrientable, partitionOrientable, ih]
      rfl

theorem collectPairs_bounded (sources : List (Equation × Bool)) :
    collectPairs (ctx.bounded n clock) sources = collectPairs ctx sources := by
  induction sources with
  | nil => rfl
  | cons source sources ih =>
      rw [collectPairs, collectPairs, ih]
      rfl

theorem allUnorientable_bounded (es : List Equation) :
    allUnorientable (ctx.bounded n clock) es = allUnorientable ctx es := by
  induction es with
  | nil => rfl
  | cons eq es ih =>
      rw [allUnorientable, allUnorientable, ih]
      rfl

theorem normalizePairs_bounded (found pairs : List Equation) :
    normalizePairs (ctx.bounded n clock) found pairs = normalizePairs ctx found pairs := by
  induction pairs generalizing found with
  | nil => rfl
  | cons pair pairs ih =>
      simp only [normalizePairs, ih]
      rfl

theorem pairsMeet_bounded (pairs : List Equation) :
    pairsMeet (ctx.bounded n clock) pairs = pairsMeet ctx pairs := by
  induction pairs with
  | nil => rfl
  | cons pair pairs ih =>
      rw [pairsMeet, pairsMeet, ih]
      rfl

theorem sourcesJoin_bounded (sources : List (Equation × Bool)) :
    sourcesJoin (ctx.bounded n clock) sources = sourcesJoin ctx sources := by
  induction sources with
  | nil => rfl
  | cons source sources ih =>
      simp only [sourcesJoin, normalizePairs_bounded, pairsMeet_bounded, ih]
      rfl

theorem checkTerminal_bounded : checkTerminal (ctx.bounded n clock) = checkTerminal ctx := by
  simp only [checkTerminal, allPairsJoin, allUnorientable_bounded, sourcesJoin_bounded]
  rfl

/-- No step looks at the clock. -/
theorem advance_timed : advance (ctx.timed clock) = advance ctx := by
  simp only [advance, advanceInner, pick_bounded, addRule_bounded, defer, collectPairs_bounded, interreduce,
    compose_bounded, sortWorklist, partitionOrientable_bounded]
  rfl

end

theorem compose_extends (le : m ≤ n) : Extends (compose ctx m) (compose ctx n) := by
  induction m generalizing n with
  | zero => exact fun _ _ fed => absurd rfl fed
  | succ m ih =>
      cases n with
      | zero => exact absurd le (Nat.not_succ_le_zero m)
      | succ n =>
          rw [compose, compose]
          refine .bind (.refl _) fun e => .bind (.refl _) fun found => ?_
          split
          · exact .refl _
          · exact .bind (.refl _) fun _ => ih (Nat.le_of_succ_le_succ le)

theorem interreduce_extends (le : m ≤ n) :
    Extends (interreduce (ctx.withFuel m)) (interreduce (ctx.withFuel n)) := by
  simp only [interreduce, compose_bounded]
  refine .bind (compose_extends le) fun _ => ?_
  simp only [sortWorklist, partitionOrientable_bounded]
  exact .refl _

theorem advance_extends (le : m ≤ n) :
    Extends (advance (ctx.withFuel m)) (advance (ctx.withFuel n)) := by
  refine .poison ?_
  simp only [advanceInner, pick_bounded, addRule_bounded, defer, collectPairs_bounded]
  refine .bind (.refl _) fun _ => .bind (.refl _) fun eq => .bind (.refl _) fun direction => ?_
  split
  · exact .bind (.refl _) fun _ => interreduce_extends le
  · split
    · exact .refl _
    · refine .bind (.refl _) fun e => ?_
      split
      · exact .bind (.refl _) fun _ => .bind (.refl _) fun _ => .bind (.refl _) fun _ =>
          .bind (.refl _) fun _ => interreduce_extends le
      · exact .bind (.refl _) fun _ => interreduce_extends le

end Engine
end OrderedCompletion
