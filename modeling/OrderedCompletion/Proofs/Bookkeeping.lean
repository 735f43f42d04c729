import OrderedCompletion.Proofs.Recording

/-! The counters of a run are the numbers of what happened in it, and account for the rules that it has. -/

namespace OrderedCompletion

/-- How often each thing happened. -/
structure Totals where
  steps : Nat := 0
  added : Nat := 0
  /-- Rules that were added although they were there. -/
  repeated : Nat := 0
  collapsed : Nat := 0
  composed : Nat := 0
  /-- Rules that were composed to one that was there. -/
  merged : Nat := 0
  deferred : Nat := 0
  generated : Nat := 0
  kept : Nat := 0
  deriving DecidableEq, Repr

namespace Totals

def count (t : Totals) : Event → Totals
  | .step => { t with steps := t.steps + 1 }
  | .added repeated => { t with added := t.added + 1, repeated := t.repeated + repeated.toNat }
  | .collapsed => { t with collapsed := t.collapsed + 1 }
  | .composed merged => { t with composed := t.composed + 1, merged := t.merged + merged.toNat }
  | .deferred => { t with deferred := t.deferred + 1 }
  | .pairs generated kept => { t with generated := t.generated + generated, kept := t.kept + kept }

def ofEvents (events : List Event) : Totals := events.foldr (fun event t => t.count event) {}

/-- The number of all events; each critical pair is one. -/
def size (t : Totals) : Nat := t.steps + t.added + t.collapsed + t.composed + t.deferred + t.generated

end Totals

/-- The counters have these totals, but for wrapping around. -/
structure Metrics.Counts (m : Metrics) (t : Totals) : Prop where
  steps : m.steps = .ofNat t.steps
  added : m.rulesAdded = .ofNat t.added
  collapsed : m.rulesCollapsed = .ofNat t.collapsed
  composed : m.rulesComposed = .ofNat t.composed
  deferred : m.equationsDeferred = .ofNat t.deferred
  generated : m.criticalPairs = .ofNat t.generated
  kept : m.criticalPairsKept = .ofNat t.kept

namespace Metrics

variable {m m' : Metrics} {t : Totals}

theorem Counts.of_tally (h : m.Counts t) (same : m'.tally = m.tally) : m'.Counts t where
  steps := (congrArg Metrics.steps same).trans h.steps
  added := (congrArg rulesAdded same).trans h.added
  collapsed := (congrArg rulesCollapsed same).trans h.collapsed
  composed := (congrArg rulesComposed same).trans h.composed
  deferred := (congrArg equationsDeferred same).trans h.deferred
  generated := (congrArg criticalPairs same).trans h.generated
  kept := (congrArg criticalPairsKept same).trans h.kept

/-- Counts an event. -/
def record (m : Metrics) : Event → Metrics
  | .step => m.recordStep
  | .added _ => m.recordRuleAdded
  | .collapsed => m.recordRuleCollapsed
  | .composed _ => m.recordRuleComposed
  | .deferred => m.recordDeferred
  | .pairs generated kept => m.recordCriticalPairs generated kept

theorem Counts.record (h : m.Counts t) (event : Event) : (m.record event).Counts (t.count event) := by
  obtain ⟨steps, added, collapsed, composed, deferred, generated, kept⟩ := h
  have next : ∀ {c : UInt64} {n : Nat}, c = .ofNat n → c + 1 = .ofNat (n + 1) := by
    rintro _ n rfl
    exact (UInt64.ofNat_add n 1).symm
  have more : ∀ {c : UInt64} {n : Nat} (k : Nat), c = .ofNat n → c + .ofNat k = .ofNat (n + k) := by
    rintro _ n k rfl
    exact (UInt64.ofNat_add n k).symm
  cases event with
  | step => exact ⟨next steps, added, collapsed, composed, deferred, generated, kept⟩
  | added _ => exact ⟨steps, next added, collapsed, composed, deferred, generated, kept⟩
  | collapsed => exact ⟨steps, added, next collapsed, composed, deferred, generated, kept⟩
  | composed _ => exact ⟨steps, added, collapsed, next composed, deferred, generated, kept⟩
  | deferred => exact ⟨steps, added, collapsed, composed, next deferred, generated, kept⟩
  | pairs n k => exact ⟨steps, added, collapsed, composed, deferred, more n generated, more k kept⟩

end Metrics

namespace Metrics

/-- The counters are these totals. -/
structure Tells (m : Metrics) (t : Totals) : Prop where
  steps : m.steps.toNat = t.steps
  added : m.rulesAdded.toNat = t.added
  collapsed : m.rulesCollapsed.toNat = t.collapsed
  composed : m.rulesComposed.toNat = t.composed
  deferred : m.equationsDeferred.toNat = t.deferred
  generated : m.criticalPairs.toNat = t.generated
  kept : m.criticalPairsKept.toNat = t.kept

theorem Counts.tells {m : Metrics} {t : Totals} (h : m.Counts t) (kept : t.kept ≤ t.generated)
    (few : t.size < 2 ^ 64) : m.Tells t := by
  have value : ∀ {c : UInt64} {n : Nat}, c = .ofNat n → n < 2 ^ 64 → c.toNat = n := by
    rintro _ n rfl small
    rw [UInt64.toNat_ofNat', Nat.mod_eq_of_lt small]
  rw [Totals.size] at few
  exact ⟨value h.steps (by omega), value h.added (by omega), value h.collapsed (by omega),
    value h.composed (by omega), value h.deferred (by omega), value h.generated (by omega),
    value h.kept (by omega)⟩

end Metrics

open Engine RecordM
open TermM (Yields)

/-! ### How many rules there are -/

section
variable {es before after : List Equation} {eq old rule : Equation}

theorem length_addNew (es : List Equation) (eq : Equation) :
    (addNew es eq).length + (decide (eq ∈ es)).toNat = es.length + 1 := by
  rw [addNew]
  split
  · rename_i known
    rw [decide_eq_true known, Bool.toNat_true]
  · rename_i fresh
    rw [decide_eq_false fresh, Bool.toNat_false, List.length_append, List.length_singleton]

theorem length_composed : (if rule ∈ before ++ after then before ++ after else before ++ rule :: after).length +
    (decide (rule ∈ before ++ after)).toNat = (before ++ old :: after).length := by
  rw [List.length_append, List.length_cons]
  split
  · rename_i known
    rw [decide_eq_true known, Bool.toNat_true, List.length_append, Nat.add_assoc]
  · rename_i fresh
    rw [decide_eq_false fresh, Bool.toNat_false, List.length_append, List.length_cons, Nat.add_zero]

theorem length_remove (nodup : es.Nodup) (mem : eq ∈ es) : (remove es eq).length + 1 = es.length := by
  have same : remove es eq = es.erase eq := by
    rw [nodup.erase_eq_filter, remove]
    exact List.filter_congr fun c _ => by simp [bne, beq_eq_decide]
  rw [same, List.length_erase_add_one mem]

end

/-- The books of a run with a record are right, and so many orientations may follow in the step that is taken. -/
structure Books (r : Recorded) (spare : Nat) : Prop where
  counts : r.engine.metrics.Counts (.ofEvents r.events)
  steps : r.engine.steps = (Totals.ofEvents r.events).steps
  nodup : r.engine.rules.Nodup
  balance : r.engine.rules.length + (Totals.ofEvents r.events).collapsed + (Totals.ofEvents r.events).merged +
    (Totals.ofEvents r.events).repeated = (Totals.ofEvents r.events).added
  oriented : (Totals.ofEvents r.events).added + (Totals.ofEvents r.events).deferred + spare ≤
    (Totals.ofEvents r.events).steps
  kept : (Totals.ofEvents r.events).kept ≤ (Totals.ofEvents r.events).generated

/-- Nothing is booked: rules, steps and counters are as before, whatever the passes. -/
structure Unbooked (e e' : Engine) : Prop where
  rules : e'.rules = e.rules
  steps : e'.steps = e.steps
  tally : e'.metrics.tally = e.metrics.tally

namespace Unbooked

variable {e e' e'' : Engine}

theorem refl (e : Engine) : Unbooked e e := ⟨rfl, rfl, rfl⟩

theorem trans (h : Unbooked e e') (h' : Unbooked e' e'') : Unbooked e e'' :=
  ⟨h'.rules.trans h.rules, h'.steps.trans h.steps, h'.tally.trans h.tally⟩

theorem of_unmoved (h : Unmoved e e') : Unbooked e e' := ⟨h.rules, h.steps, h.tally⟩

end Unbooked

namespace Books

variable {e e' : Engine} {events : List Event} {r : Recorded} {k k' : Nat} {ab rule : Equation}

theorem spend (h : Books r k) (le : k' ≤ k) : Books r k' :=
  { h with oriented := (Nat.add_le_add_left le _).trans h.oriented }

theorem quiet (h : Books r k) (quiet : Unbooked r.engine e') : Books ⟨e', r.events⟩ k where
  counts := h.counts.of_tally quiet.tally
  steps := quiet.steps.trans h.steps
  nodup := quiet.rules ▸ h.nodup
  balance := quiet.rules ▸ h.balance
  oriented := h.oriented
  kept := h.kept

/-! ### What happens leaves the books right -/

theorem step (h : Books r k) :
    Books ⟨{ r.engine with steps := r.engine.steps + 1, metrics := r.engine.metrics.recordStep },
      .step :: r.events⟩ (k + 1) where
  counts := h.counts.record .step
  steps := congrArg (· + 1) h.steps
  nodup := h.nodup
  balance := h.balance
  oriented := Nat.succ_le_succ h.oriented
  kept := h.kept

/-- A rule that is added makes one more, or it was there. -/
theorem added (h : Books r (k + 1)) (ab : Equation) :
    Books ⟨{ r.engine with metrics := r.engine.metrics.recordRuleAdded, rules := addNew r.engine.rules ab },
      .added (ab ∈ r.engine.rules) :: r.events⟩ k where
  counts := h.counts.record (.added (ab ∈ r.engine.rules))
  steps := h.steps
  nodup := addNew_nodup h.nodup ab
  balance := by
    have balance := h.balance
    have length := length_addNew r.engine.rules ab
    change (addNew r.engine.rules ab).length + (Totals.ofEvents r.events).collapsed +
      (Totals.ofEvents r.events).merged +
      ((Totals.ofEvents r.events).repeated + (decide (ab ∈ r.engine.rules)).toNat) =
        (Totals.ofEvents r.events).added + 1
    omega
  oriented := by
    have oriented := h.oriented
    change (Totals.ofEvents r.events).added + 1 + (Totals.ofEvents r.events).deferred + k ≤
      (Totals.ofEvents r.events).steps
    omega
  kept := h.kept

theorem pairs (h : Books r k) {n m : Nat} (le : m ≤ n) (equations : List Equation) :
    Books ⟨{ r.engine with metrics := r.engine.metrics.recordCriticalPairs n m, equations },
      .pairs n m :: r.events⟩ k where
  counts := h.counts.record (.pairs n m)
  steps := h.steps
  nodup := h.nodup
  balance := h.balance
  oriented := h.oriented
  kept := Nat.add_le_add h.kept le

theorem deferred (h : Books r (k + 1)) (equations : List Equation) :
    Books ⟨{ r.engine with metrics := r.engine.metrics.recordDeferred, equations }, .deferred :: r.events⟩ k where
  counts := h.counts.record .deferred
  steps := h.steps
  nodup := h.nodup
  balance := h.balance
  oriented := by
    have oriented := h.oriented
    change (Totals.ofEvents r.events).added + ((Totals.ofEvents r.events).deferred + 1) + k ≤
      (Totals.ofEvents r.events).steps
    omega
  kept := h.kept

/-- A rule that collapses is one rule less. -/
theorem collapsed (h : Books r k) (mem : rule ∈ r.engine.rules) (equations : List Equation) :
    Books ⟨{ r.engine with
      metrics := r.engine.metrics.recordRuleCollapsed
      equations
      rules := remove r.engine.rules rule }, .collapsed :: r.events⟩ k where
  counts := h.counts.record .collapsed
  steps := h.steps
  nodup := h.nodup.filter _
  balance := by
    have balance := h.balance
    have length := length_remove h.nodup mem
    change (remove r.engine.rules rule).length + ((Totals.ofEvents r.events).collapsed + 1) +
      (Totals.ofEvents r.events).merged + (Totals.ofEvents r.events).repeated = (Totals.ofEvents r.events).added
    omega
  oriented := h.oriented
  kept := h.kept

/-- A rule that is composed stays one rule, or is one that was there. -/
theorem composed (h : Books r k) {before after : List Equation} {old : Equation}
    (split : r.engine.rules = before ++ old :: after) :
    Books ⟨{ r.engine with
      metrics := r.engine.metrics.recordRuleComposed
      rules := if rule ∈ before ++ after then before ++ after else before ++ rule :: after },
      .composed (rule ∈ before ++ after) :: r.events⟩ k where
  counts := h.counts.record (.composed (rule ∈ before ++ after))
  steps := h.steps
  nodup := composed_nodup (split ▸ h.nodup)
  balance := by
    have balance := h.balance
    have length : List.length (if rule ∈ before ++ after then before ++ after else before ++ rule :: after) +
        (decide (rule ∈ before ++ after)).toNat = r.engine.rules.length := by
      rw [split]
      exact length_composed
    change List.length (if rule ∈ before ++ after then _ else _) + (Totals.ofEvents r.events).collapsed +
      ((Totals.ofEvents r.events).merged + (decide (rule ∈ before ++ after)).toNat) +
      (Totals.ofEvents r.events).repeated = (Totals.ofEvents r.events).added
    omega
  oriented := h.oriented
  kept := h.kept

end Books

/-! ### Calls that leave the books alone -/

namespace Engine

variable {ctx : Context} {e e' : Engine} {α β : Type} {x : EngineM α} {f : α → EngineM β} {eq : Equation}

/-- The call leaves rules, steps and counters as they are, also if it fails. -/
abbrev Quietly (e : Engine) (x : EngineM α) : Prop := Yields e x (fun _ e' => Unbooked e e') fun _ e' => Unbooked e e'

theorem Quietly.pure (a : α) : Quietly e (Pure.pure a) := Yields.pure (.refl e)

theorem Quietly.modify {m : Engine → Engine} (h : Unbooked e (m e)) : Quietly e (modify m) := fun _ => h

theorem Quietly.bind (hx : Quietly e x) (hf : ∀ a e', Quietly e' (f a)) : Quietly e (x >>= f) :=
  Yields.bind hx fun a e₁ h => (hf a e₁).mono (fun _ _ h' => h.trans h') fun _ _ h' => h.trans h'

theorem Idles.quietly {P : α → Prop} (h : Idles e x P) : Quietly e x :=
  h.mono (fun _ _ h => .of_unmoved h.1) fun _ _ h => .of_unmoved h.1

theorem Sure.quietly (h : Sure e x) : Quietly e x := h.idles.quietly

theorem fail_quietly {failure : Failure} : Quietly e (fail ctx failure : EngineM α) := fail_yields fun _ => .refl e

theorem Quietly.poisonOnError (h : Quietly e x) : Quietly e (Engine.poisonOnError x) :=
  poisonOnError_yields h fun _ _ h => ⟨h.rules, h.steps, h.tally⟩

theorem simplify_quietly : Quietly e (simplify ctx) :=
  .bindGet (reduceWith_idles.quietly.bind fun _ _ => .modify ⟨rfl, rfl, rfl⟩)

theorem sortWorklist_quietly : Quietly e (sortWorklist ctx) := by
  rw [sortWorklist]
  refine .bindGet ?_
  split
  · exact Quietly.bind (partitionOrientable_idles _).quietly fun _ _ =>
      .bindStore fun _ => Quietly.modify ⟨rfl, rfl, rfl⟩
  · exact .bindStore fun _ => Quietly.modify ⟨rfl, rfl, rfl⟩

theorem tidyEquations_quietly : Quietly e (tidyEquations ctx) := by
  rw [tidyEquations]
  refine simplify_quietly.bind fun _ e₁ => .bindGet ?_
  have thinned : ∀ {e}, Quietly e (do
      let equations ← removeSubsumed [] (← get).equations
      modify fun e => { e with equations }) :=
    .bindGet (.bindLift fun _ => Quietly.modify ⟨rfl, rfl, rfl⟩)
  split
  · exact sortWorklist_quietly.bind fun _ _ => thinned
  · exact thinned

theorem checkTerminal_quietly : Quietly e (checkTerminal ctx) := by
  rw [checkTerminal]
  refine .bindGet ?_
  split
  · exact Quietly.pure true
  · exact Quietly.pure true
  · exact fail_quietly
  · refine .bindGet ?_
    dsimp only
    split
    · exact Quietly.bind (.modify ⟨rfl, rfl, rfl⟩) fun _ _ => .pure true
    · refine (allUnorientable_sure _).quietly.bind fun none e₁ => ?_
      split
      · exact Quietly.pure false
      · refine allPairsJoin_idles.quietly.poisonOnError.bind fun joined e₂ => ?_
        split
        · exact Quietly.pure false
        · exact Quietly.bind (.modify ⟨rfl, rfl, rfl⟩) fun _ _ => .pure true

theorem checkBudget_quietly {taken : Nat} : Quietly e (checkBudget ctx taken) := by
  refine checkBudget_yields.mono ?_ ?_
  · rintro _ _ rfl
    exact .refl _
  · rintro _ _ ⟨rfl, -⟩
    exact .refl _

theorem ensureUsable_quietly : Quietly e (ensureUsable ctx) := by
  refine ensureUsable_yields.mono ?_ ?_
  · rintro _ _ rfl
    exact .refl _
  · rintro _ _ ⟨rfl, -⟩
    exact .refl _

theorem openQuery_quietly : Quietly e (openQuery ctx eq) :=
  ensureUsable_quietly.bind fun _ _ => (reserve_sure _).quietly.bind fun _ _ =>
    (reserve_sure _).quietly.bind fun _ _ => .modify ⟨rfl, rfl, rfl⟩

theorem reduce_quietly (r : Ref) : Quietly e (reduce ctx r) :=
  ensureUsable_quietly.bind fun _ _ => (reserve_sure _).quietly.bind fun _ _ => .bindGet reduceWith_idles.quietly

theorem normalForm_quietly (r : Ref) : Quietly e (normalForm ctx r) := by
  rw [normalForm]
  refine ensureUsable_quietly.bind fun _ _ => .bindGet (.bindLift fun ground => ?_)
  have refused : ∀ {e failure}, Quietly e (fail ctx failure >>= fun _ : PUnit => reduce ctx r) :=
    fail_quietly.bind fun _ _ => reduce_quietly r
  dsimp only
  split
  · split
    · exact refused
    · exact reduce_quietly r
  · split
    · exact refused
    · exact reduce_quietly r

end Engine

/-! ### Calls that keep the books right -/

namespace RecordM

variable {ctx : Context} {r : Recorded} {α β : Type} {x : RecordM α} {f : α → RecordM β} {y : EngineM α}
variable {eq ab : Equation} {k k' : Nat}

/-- The books are right after the call, also if it fails. After a success so many orientations may follow in the
step. -/
abbrev Accounts (r : Recorded) (x : RecordM α) (k : Nat) : Prop :=
  Yields r x (fun _ r' => Books r' k) fun _ r' => Books r' 0

theorem Accounts.bind (hx : Accounts r x k) (hf : ∀ a r', Books r' k → Accounts r' (f a) k') :
    Accounts r (x >>= f) k' := Yields.bind hx hf

theorem Accounts.pure (books : Books r k) (a : α) : Accounts r (Pure.pure a) k := Yields.pure books

theorem Accounts.poisonOnError (h : Accounts r x k) : Accounts r (RecordM.poisonOnError x) k := by
  intro s
  have out := h s
  rw [RecordM.poisonOnError_apply]
  cases outcome : (x r s).1.1 with
  | ok a =>
      rw [outcome] at out
      exact out
  | error halt =>
      rw [outcome] at out
      exact out.quiet ⟨rfl, rfl, rfl⟩

theorem lift_yields {Q : α → Engine → Prop} {F : Halt → Engine → Prop} (h : Yields r.engine y Q F) :
    Yields r (lift y) (fun a r' => ∃ e', r' = ⟨e', r.events⟩ ∧ Q a e')
      fun halt r' => ∃ e', r' = ⟨e', r.events⟩ ∧ F halt e' := by
  refine (Yields.within h).mono (fun _ _ h => h) ?_
  rintro _ _ ⟨halt, e', rfl, rfl, h⟩
  exact ⟨e', rfl, h⟩

/-- A call that books nothing leaves the books right, and the rules are the same if it succeeds. -/
theorem lift_unbooked {Q : α → Prop} (books : Books r k)
    (h : Yields r.engine y (fun a e' => Unbooked r.engine e' ∧ Q a) fun _ e' => Unbooked r.engine e') :
    Yields r (lift y) (fun a r' => Books r' k ∧ r'.engine.rules = r.engine.rules ∧ Q a) fun _ r' => Books r' 0 := by
  refine (lift_yields h).mono ?_ ?_
  · rintro a _ ⟨e', rfl, unbooked, hQ⟩
    exact ⟨books.quiet unbooked, unbooked.rules, hQ⟩
  · rintro _ _ ⟨e', rfl, unbooked⟩
    exact (books.quiet unbooked).spend (Nat.zero_le k)

theorem lift_accounts (books : Books r k) (h : Quietly r.engine y) : Accounts r (lift y) k :=
  (lift_unbooked (Q := fun _ => True) books (h.mono (fun _ _ h => ⟨h, trivial⟩) fun _ _ h => h)).mono
    (fun _ _ h => h.1) fun _ _ h => h

theorem lift_idles {Q : α → Prop} (books : Books r k) (h : Idles r.engine y Q) :
    Yields r (lift y) (fun a r' => Books r' k ∧ r'.engine.rules = r.engine.rules ∧ Q a) fun _ r' => Books r' 0 :=
  lift_unbooked books (h.mono (fun _ _ h => ⟨.of_unmoved h.1, h.2⟩) fun _ _ h => .of_unmoved h.1)

theorem lift_get {g : Engine → RecordM β} {Q : β → Recorded → Prop} {F : Halt → Recorded → Prop}
    (h : Yields r (g r.engine) Q F) : Yields r (lift get >>= g) Q F := by
  intro s
  rw [TermM.bind_apply]
  exact h s

theorem collapseBy_accounts {rules : List Equation} (nodup : rules.Nodup) (sub : rules ⊆ r.engine.rules)
    (books : Books r k) : Accounts r (collapseBy ctx ab rules) k := by
  induction rules generalizing r with
  | nil => exact .pure books ()
  | cons rule rules ih =>
      obtain ⟨fresh, nodup⟩ := List.nodup_cons.1 nodup
      obtain ⟨mem, sub⟩ := List.cons_subset.1 sub
      rw [collapseBy]
      refine (lift_idles books reduceWith_idles).bind ?_
      rintro lhs r₁ ⟨books₁, same, -⟩
      rw [← same] at mem sub
      split
      · refine .bindModify (ih nodup (fun c hc => ?_) (books₁.collapsed mem _))
        refine List.mem_filter.2 ⟨sub hc, decide_eq_true ?_⟩
        rintro rfl
        exact fresh hc
      · exact ih nodup sub books₁

theorem compose_accounts (books : Books r k) (n : Nat) : Accounts r (compose ctx n) k := by
  induction n generalizing r with
  | zero => exact .throw (books.spend (Nat.zero_le k))
  | succ n ih =>
      rw [compose]
      refine lift_get ((lift_idles books (findComposable_idles [] r.engine.rules)).bind ?_)
      rintro found r₁ ⟨books₁, same, composable⟩
      split
      · exact Accounts.pure books₁ ()
      · rename_i before rule after
        obtain ⟨old, split, -⟩ := composable before rule after rfl
        exact .bindModify (ih (books₁.composed (same.trans split)))

theorem addRule_accounts (books : Books r (k + 1)) : Accounts r (addRule ctx eq ab) k := by
  rw [addRule]
  refine .bindModify ((lift_idles (books.added ab) (superpose_idles ab false)).bind ?_)
  rintro pairs r₁ ⟨books₁, -, -⟩
  refine lift_get (.bindLiftOf (P := fun kept => kept.length ≤ pairs.length) (filterSubsumed_length_le _ pairs) ?_)
  refine fun kept few => .bindModify (lift_get ?_)
  exact collapseBy_accounts (books₁.nodup.filter _) List.filter_sublist.subset (books₁.pairs few _)

theorem defer_accounts (books : Books r (k + 1)) : Accounts r (defer ctx eq) k := by
  rw [defer]
  refine .bindModify ((lift_idles (books.deferred _) (collectPairs_idles _)).bind ?_)
  rintro ⟨n, kept⟩ r₁ ⟨books₁, -, few⟩
  exact fun _ => books₁.pairs few _

theorem interreduce_accounts (books : Books r k) : Accounts r (interreduce ctx) k :=
  (compose_accounts books ctx.fuel).bind fun _ _ books => lift_accounts books tidyEquations_quietly

/-- A step is counted before anything can fail, and one orientation or deferral may follow. -/
theorem advance_accounts (books : Books r 0) : Accounts r (advance ctx) 0 := by
  refine .poisonOnError ?_
  rw [advanceInner]
  refine .bindModify ?_
  refine (lift_accounts books.step pick_idles.quietly).bind fun eq r₁ books₁ => ?_
  refine (lift_accounts books₁ (orient_idles eq).quietly).bind fun direction r₂ books₂ => ?_
  have deferred : ∀ {r}, Books r 1 → Accounts r (do defer ctx eq; interreduce ctx) 0 :=
    fun books => (defer_accounts books).bind fun _ _ => interreduce_accounts
  split
  · exact (addRule_accounts books₂).bind fun _ _ => interreduce_accounts
  · split
    · exact lift_accounts (books₂.spend (Nat.zero_le 1)) (.modify ⟨rfl, rfl, rfl⟩)
    · refine lift_get ?_
      split
      · refine lift_get ((lift_accounts books₂ (y := getThe Store) fun _ => .refl _).bind fun s r₃ books₃ => ?_)
        exact (lift_accounts books₃ fail_quietly).bind fun _ _ => deferred
      · exact deferred books₂

theorem step_accounts (books : Books r 0) : Accounts r (step ctx) 0 := by
  rw [step]
  refine (lift_accounts books checkTerminal_quietly).bind fun ended r₁ books₁ => ?_
  split
  · exact .pure books₁ true
  · exact (advance_accounts books₁).bind fun _ _ books => .pure books false

theorem completeFrom_accounts (books : Books r 0) (fuel taken : Nat) :
    Accounts r (completeFrom ctx fuel taken) 0 := by
  induction fuel generalizing r taken with
  | zero => exact .throw books
  | succ fuel ih =>
      rw [completeFrom]
      refine (lift_accounts books checkTerminal_quietly).bind fun ended r₁ books₁ => ?_
      split
      · exact .pure books₁ ()
      · exact (lift_accounts books₁ checkBudget_quietly).bind fun _ _ books => (advance_accounts books).bind
          fun _ _ books => ih books (taken + 1)

theorem equalFrom_accounts (books : Books r 0) (fuel taken : Nat) :
    Accounts r (equalFrom ctx eq fuel taken) 0 := by
  induction fuel generalizing r taken with
  | zero => exact .throw books
  | succ fuel ih =>
      rw [equalFrom]
      refine (lift_accounts books (normalizeSides_idles eq).quietly).bind fun sides r₁ books₁ => ?_
      split
      · exact .pure books₁ true
      · refine (lift_accounts books₁ checkTerminal_quietly).bind fun ended r₂ books₂ => ?_
        split
        · exact .pure books₂ false
        · exact (lift_accounts books₂ checkBudget_quietly).bind fun _ _ books => (advance_accounts books).bind
            fun _ _ books => ih books (taken + 1)

end RecordM

namespace Engine

variable {ctx : Context} {r : Recorded} {s : Store} {α : Type} {x : RecordM α}

theorem leaves_books (h : Accounts r x 0) : Books (leaves x r s).1 0 := by
  have out := h s
  rw [leaves]
  cases outcome : (x r s).1.1 with
  | ok a =>
      rw [outcome] at out
      exact out
  | error halt =>
      rw [outcome] at out
      exact out

/-- Every call leaves books right that were right, if it succeeds and if it fails. -/
theorem Call.record_books (c : Call) (books : Books r 0) : Books (c.record ctx r s).1 0 := by
  cases c with
  | step => exact leaves_books (step_accounts books)
  | complete =>
      exact leaves_books ((lift_accounts books (.modify ⟨rfl, rfl, rfl⟩)).bind fun _ _ books =>
        completeFrom_accounts books _ _)
  | equal eq =>
      exact leaves_books ((lift_accounts books openQuery_quietly).bind fun _ _ books =>
        equalFrom_accounts books _ _)
  | reduce q => exact leaves_books (lift_accounts books (reduce_quietly q))
  | normalForm q => exact leaves_books (lift_accounts books (normalForm_quietly q))
  | setBudget maxSteps timeLimit => exact books.quiet ⟨rfl, rfl, rfl⟩
  | cancel => exact books.quiet ⟨rfl, rfl, rfl⟩

theorem recordAll_books (visits : List Visit) (books : Books r 0) : Books (recordAll visits r) 0 := by
  induction visits generalizing r with
  | nil => exact books
  | cons v visits ih => exact ih (v.call.record_books books)

end Engine

/-! ### Whole runs -/

/-- What the counters of a run say about it and about each other. What was added and is no rule now has collapsed, was
merged with another rule, or had been there before. -/
structure Truthful (e : Engine) (t : Totals) : Prop where
  tells : e.metrics.Tells t
  steps : e.metrics.steps.toNat = e.steps
  oriented : e.metrics.rulesAdded.toNat + e.metrics.equationsDeferred.toNat ≤ e.steps
  kept : e.metrics.criticalPairsKept.toNat ≤ e.metrics.criticalPairs.toNat
  rules : e.rules.length + e.metrics.rulesCollapsed.toNat ≤ e.metrics.rulesAdded.toNat
  difference : e.metrics.rulesAdded.toNat - (e.rules.length + e.metrics.rulesCollapsed.toNat) = t.merged + t.repeated

theorem Books.truthful {r : Recorded} (h : Books r 0) (few : (Totals.ofEvents r.events).size < 2 ^ 64) :
    Truthful r.engine (.ofEvents r.events) := by
  obtain ⟨counts, steps, -, balance, oriented, kept⟩ := h
  have tells := counts.tells kept few
  refine ⟨tells, ?_, ?_, ?_, ?_, ?_⟩
  · rw [tells.steps, steps]
  · rw [tells.added, tells.deferred, steps]
    exact oriented
  · rw [tells.kept, tells.generated]
    exact kept
  · rw [tells.collapsed, tells.added]
    omega
  · rw [tells.collapsed, tells.added]
    omega

namespace Problem

theorem start_books (p : Problem) : Books { engine := p.start.1 } 0 :=
  ⟨⟨rfl, rfl, rfl, rfl, rfl, rfl, rfl⟩, rfl, .nil, rfl, Nat.le_refl 0, Nat.le_refl 0⟩

/-- The counters of a run tell the truth after any calls, also after calls and steps that fail, as long as they did not
wrap around: they are the numbers of what happened. -/
theorem counters_truthful (p : Problem) (visits : List Visit) :
    (recordAll visits { engine := p.start.1 }).engine = runAll visits p.start.1 ∧
    ((Totals.ofEvents (recordAll visits { engine := p.start.1 }).events).size < 2 ^ 64 →
      Truthful (runAll visits p.start.1) (.ofEvents (recordAll visits { engine := p.start.1 }).events)) := by
  have same := recordAll_engine visits { engine := p.start.1 }
  refine ⟨same, fun few => ?_⟩
  rw [← same]
  exact (recordAll_books visits p.start_books).truthful few

/-- Three axioms: the second one makes a rule that collapses the first one, and no step is possible with the third. -/
def stopping : Problem :=
  let a : Term := .app (.symbol ⟨0⟩) []
  let b : Term := .app (.symbol ⟨1⟩) []
  let f (ts : List Term) : Term := .app (.symbol ⟨2⟩) ts
  let g (ts : List Term) : Term := .app (.symbol ⟨3⟩) ts
  { ofTerms (.ofKind (Precedence.compare ⟨["a", "b", "f", "g"], by decide⟩ .empty) .lpo)
      [(f [b], b), (b, a), (f [.var 0, .var 1], g [.var 1, .var 2])] with
    config := { unfailing := false, sortWorklist := false } }

def stoppingContext : Context := { symbols := ⟨["a", "b", "f", "g"], by decide⟩, order := stopping.order, fuel := 8 }

/-- The last step fails, after it is counted. -/
theorem counters_truthful_stopping :
    let e := runAll [⟨.complete, stoppingContext, stopping.start.2⟩] stopping.start.1
    e.status = .failed ∧ e.steps = 4 ∧ e.rules.length = 2 ∧ e.metrics.rulesAdded.toNat = 3 ∧
      e.metrics.rulesCollapsed.toNat = 1 ∧
      Truthful e { steps := 4, added := 3, collapsed := 1, generated := 4, kept := 4 } := by
  have totals : Totals.ofEvents
      (recordAll [⟨.complete, stoppingContext, stopping.start.2⟩] { engine := stopping.start.1 }).events =
        { steps := 4, added := 3, collapsed := 1, generated := 4, kept := 4 } := by decide +kernel
  obtain ⟨-, truthful⟩ := counters_truthful stopping [⟨.complete, stoppingContext, stopping.start.2⟩]
  rw [totals] at truthful
  have told := truthful (by decide)
  have added : _ = 3 := told.tells.added
  have collapsed : _ = 1 := told.tells.collapsed
  refine ⟨by decide +kernel, told.steps.symm.trans told.tells.steps, ?_, added, collapsed, told⟩
  have rules := told.rules
  have difference : _ = 0 := told.difference
  omega

end Problem
end OrderedCompletion
