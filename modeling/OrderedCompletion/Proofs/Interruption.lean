import OrderedCompletion.Proofs.Agreement
import OrderedCompletion.Proofs.Fuel
import OrderedCompletion.Proofs.Spending
import OrderedCompletion.Proofs.TwinChecks

/-! Completion that is interrupted and taken up again. -/

namespace OrderedCompletion

open Parallel TermM

/-- A source that has nothing left goes on to have nothing. -/
theorem Supply.Onward.dry {supply supply' : Supply} (h : supply.Onward supply') (dry : supply.source = .listed []) :
    supply'.source = .listed [] := by
  have offers := h.offers
  rw [dry] at offers
  cases source : supply'.source with
  | counting n =>
      rw [source] at offers
      cases offers n (Nat.le_refl n)
  | listed vs =>
      cases vs with
      | nil => rfl
      | cons v vs =>
          rw [source] at offers
          cases offers v List.mem_cons_self

/-- The run went on, and some of the given variables were reserved. -/
structure Side.Ahead (vs : List Var) (a a' : Side) : Prop where
  store : a.store ≤ a'.store
  next : a.next ≤ a'.next
  kept : a.reserved ⊆ a'.reserved
  reserved : ∀ v ∈ a'.reserved, v ∈ a.reserved ∨ v ∈ vs

namespace Side

variable {a a' : Side} {vs : List Var} {w : Workspace} {s : Store}

theorem Later.ahead (h : a.Later a') : a.Ahead vs a' where
  store := h.store
  next := h.next
  kept := h.reserved ▸ List.Subset.refl _
  reserved := fun _ hv => .inl (h.reserved ▸ hv)

/-- Where a run stands of which variables were taken, unless none is left. -/
theorem exists_of_spent (h : a.workspace.Spent vs w) (wf : s.WellFormed) (counted : s.Counted) (le : a.store ≤ s) :
    w.supply.source = .listed [] ∨ ∃ a', a.Ahead vs a' ∧ a'.workspace = w ∧ a'.store = s := by
  refine (h.counts a.next a.bounded rfl).imp_right ?_
  rintro ⟨m, bounded, later, counts⟩
  refine ⟨⟨s, wf, counted, m, a.started.trans later, bounded, w.supply.reserved⟩, ⟨le, later, h.kept, h.reserved⟩, ?_,
    rfl⟩
  obtain ⟨⟨source, reserved⟩, stop⟩ := w
  cases counts
  cases h.stop
  rfl

end Side

namespace Parallel

variable {P : Parallel} {a : Side} {vs : List Var} {t : Term} {r q : Ref} {c : Term × Term} {e d : Equation}

/-- The run on the right went on alone. -/
def behind (P : Parallel) (a : Side) (ahead : P.right.Ahead vs a) (free : ∀ v ∈ P.Drawn, P.names v ∉ vs) :
    Parallel where
  left := P.left
  right := a
  names := P.names
  known := P.known
  own := fun v hv => ⟨(P.own v hv).1, (P.own v hv).2.1, ahead.kept (P.own v hv).2.2⟩
  drawn := by
    intro v known made
    obtain ⟨old, started, before, unheld⟩ := P.drawn v known made
    exact ⟨old, started, before.trans_le ahead.next, fun held =>
      (ahead.reserved _ held).elim unheld (free v ⟨known, made⟩)⟩
  mono := P.mono

variable {ahead : P.right.Ahead vs a} {free : ∀ v ∈ P.Drawn, P.names v ∉ vs}

theorem Reads.behind (h : P.Reads t r q) : (P.behind a ahead free).Reads t r q :=
  ⟨h.left, h.right.mono P.right.wellFormed a.wellFormed ahead.store, h.known⟩

theorem Shows.behind (h : P.Shows c e d) : (P.behind a ahead free).Shows c e d :=
  ⟨h.lhs.behind, h.rhs.behind, h.ordered⟩

theorem TwinEq.behind (h : P.TwinEq e d) : (P.behind a ahead free).TwinEq e d := h.imp fun _ h => h.behind

theorem TwinRule.behind (h : P.TwinRule e d) : (P.behind a ahead free).TwinRule e d :=
  h.imp fun _ h => ⟨h.1.behind, h.2⟩

theorem TwinSeen.behind {seen seen' : Index (Equation × Equation) Unit} (h : P.TwinSeen seen seen') :
    (P.behind a ahead free).TwinSeen seen seen' where
  left := fun x hx => (h.left x hx).imp fun _ h => ⟨⟨h.1.1.behind, h.1.2.behind⟩, h.2⟩
  right := fun y hy => (h.right y hy).imp fun _ h => ⟨⟨h.1.1.behind, h.1.2.behind⟩, h.2⟩

/-- A run beside itself. The variables that it may not draw have their own names. -/
def alone (a : Side) : Parallel where
  left := a
  right := a
  names := .refl Var
  known := {v | v ∈ a.reserved}
  own := fun _ hv => ⟨hv, rfl, hv⟩
  drawn := fun _ held free => absurd held free
  mono := fun _ hv => absurd hv.1 hv.2

theorem reads_alone {a : Side} (h : a.store.Denotes r t) (held : ∀ v ∈ t.vars, v ∈ a.reserved) :
    (alone a).Reads t r r := by
  have same : t.rename (alone a).names = t := Term.subst_eq_self fun _ _ => rfl
  exact ⟨h, same.symm ▸ h, held⟩

theorem twinEq_alone {a : Side} (h : a.store.Means d c) (left : ∀ v ∈ c.1.vars, v ∈ a.reserved)
    (right : ∀ v ∈ c.2.vars, v ∈ a.reserved) : (alone a).TwinEq d d :=
  ⟨c, reads_alone h.1 left, reads_alone h.2 right, fun _ _ _ _ less => less⟩

end Parallel

namespace Engine

variable {P : Parallel} {a : Side} {vs : List Var} {e e' e₁' : Engine} {ctx : Context} {gt : Term → Term → Prop}
variable {m n k taken taken' : Nat} {out : Engine × Store} {b : Engine} {clock : Nat → Nat}

/-- The clock has come to the limit. -/
def Overdue (limit : Option Nat) (ms : Nat) : Prop := ∃ n ∈ limit, n ≤ ms

theorem Twins.timeLimit (h : Twins P e e') : e'.config.timeLimit = e.config.timeLimit :=
  (congrArg Config.timeLimit h.config :)

theorem Twins.behind (h : Twins P e e') (ahead : P.right.Ahead vs a) (free : ∀ v ∈ P.Drawn, P.names v ∉ vs) :
    Twins (P.behind a ahead free) e e' :=
  { h with
    equations := h.equations.imp fun _ _ h => h.behind
    rules := h.rules.imp fun _ _ h => h.behind
    seen := h.seen.behind }

/-- The run on the left goes on to its end, has never been late, and the one on the right is at the same place. -/
structure Trails (ctx : Context) (P : Parallel) (n taken : Nat) (e e' : Engine) (out : Engine × Store) : Prop where
  ends : completeFrom ctx n taken e P.left.store = ((.ok ⟨⟩, out.1), out.2)
  left : e.workspace = P.left.workspace
  right : e'.workspace = P.right.workspace
  twins : Twins P e e'
  prompt : ∀ j < taken, ¬ Overdue e.config.timeLimit (ctx.elapsed j)

/-- The run on the right goes on alone and does not move. -/
theorem Trails.behind (h : Trails ctx P n taken e e' out) (ahead : P.right.Ahead vs a)
    (free : ∀ v ∈ P.Drawn, P.names v ∉ vs) (still : Still e' e₁') (work : e₁'.workspace = a.workspace) :
    Trails ctx (P.behind a ahead free) n taken e e₁' out where
  ends := h.ends
  left := h.left
  right := work
  twins := (h.twins.behind ahead free).still (.refl e) still
  prompt := h.prompt

/-- What a call comes to that takes up a run, with a clock and a budget of steps of its own: it runs out of
variables, it ends as the run on the left does, or it stops before that, as the steps are taken or as its clock has
come to the limit and the one on the left had not. -/
inductive Resumes (ctx : Context) (clock : Nat → Nat) (k m : Nat) (b : Engine) (out : Engine × Store) :
    (Except Halt Unit × Engine) × Store → Prop
  | drained {run : (Except Halt Unit × Engine) × Store} : Drained run → Resumes ctx clock k m b out run
  | ended {P : Parallel} {e' : Engine} : Twins P out.1 e' → out.1.workspace = P.left.workspace →
      out.2 = P.left.store → e'.workspace = P.right.workspace →
      Resumes ctx clock k m b out ((.ok ⟨⟩, e'), P.right.store)
  | spent {P : Parallel} {n taken j : Nat} {e e' : Engine} {reason : String} {shot : Snapshot} :
      Trails ctx P n taken e e' out → n ≤ m → e.steps = b.steps + j → e.steps < out.1.steps →
      (j = k ∨ j < k ∧ Overdue b.config.timeLimit (clock j) ∧ ¬ Overdue b.config.timeLimit (ctx.elapsed j)) →
      Resumes ctx clock k m b out ((.error (.error ⟨.budgetExceeded j reason, shot⟩), e'), P.right.store)

theorem Resumes.mono {run : (Except Halt Unit × Engine) × Store} (h : Resumes ctx clock k m b out run) (le : m ≤ n) :
    Resumes ctx clock k n b out run := by
  cases h with
  | drained h => exact .drained h
  | ended twins left store right => exact .ended twins left store right
  | spent trails fuel steps more why => exact .spent trails (fuel.trans le) steps more why

theorem timeSpent_eq_none :
    budgetSpent.timeSpent ctx e taken = none ↔ ¬ Overdue e.config.timeLimit (ctx.elapsed taken) := by
  rw [budgetSpent.timeSpent, Overdue]
  cases e.config.timeLimit with
  | none => simp
  | some limit => simp

theorem budgetSpent_eq_none : budgetSpent ctx e taken = none ↔ e.workspace.stop = false ∧
    (∀ k, e.config.maxSteps = some k → taken < k) ∧ ¬ Overdue e.config.timeLimit (ctx.elapsed taken) := by
  rw [budgetSpent]
  cases e.workspace.stop with
  | true => simp
  | false =>
      cases e.config.maxSteps with
      | none => simp [timeSpent_eq_none]
      | some k =>
          by_cases spent : k ≤ taken
          · simp [spent]
          · simp [spent, Nat.lt_of_not_le spent, timeSpent_eq_none]

/-- One round of completion once it is known whether the run is at its end. -/
theorem completeFrom_succ {yes : Bool} {e₁ : Engine} {s s₁ : Store}
    (h : checkTerminal ctx e s = ((.ok yes, e₁), s₁)) : completeFrom ctx (n + 1) taken e s =
      if yes then ((.ok ⟨⟩, e₁), s₁)
      else match budgetSpent ctx e₁ taken with
        | some reason => ((.error (.error ⟨.budgetExceeded taken reason, e₁.snapshot ctx.symbols s₁⟩), e₁), s₁)
        | none => (advance ctx >>= fun _ => completeFrom ctx n (taken + 1)) e₁ s₁ := by
  rw [completeFrom, bind_apply, h]
  cases yes with
  | true => rfl
  | false =>
      dsimp only
      rw [if_neg Bool.false_ne_true, if_neg Bool.false_ne_true, checkBudget, bind_assoc, get_bind]
      cases budgetSpent ctx e₁ taken with
      | none => rfl
      | some reason => rfl

/-- A call that succeeds is at the end of the run, or it takes a step and goes on. -/
theorem exists_of_completeFrom {s s' : Store} (h : completeFrom ctx n taken e s = ((.ok ⟨⟩, e'), s')) :
    ∃ m yes e₁ s₁, n = m + 1 ∧ checkTerminal ctx e s = ((.ok yes, e₁), s₁) ∧
      (yes = true → e' = e₁ ∧ s' = s₁) ∧ (yes = false → ¬ Overdue e₁.config.timeLimit (ctx.elapsed taken) ∧ ∃ e₂ s₂,
        advance ctx e₁ s₁ = ((.ok ⟨⟩, e₂), s₂) ∧ completeFrom ctx m (taken + 1) e₂ s₂ = ((.ok ⟨⟩, e'), s')) := by
  cases n with
  | zero => cases h
  | succ m =>
  have unfolded := h
  rw [completeFrom] at unfolded
  obtain ⟨yes, e₁, s₁, first, -⟩ := exists_of_bind_ok unfolded
  rw [completeFrom_succ first] at h
  refine ⟨m, yes, e₁, s₁, rfl, first, ?_, ?_⟩
  · rintro rfl
    cases h
    exact ⟨rfl, rfl⟩
  · rintro rfl
    rw [if_neg Bool.false_ne_true] at h
    cases spent : budgetSpent ctx e₁ taken with
    | some reason =>
        rw [spent] at h
        cases h
    | none =>
        rw [spent] at h
        obtain ⟨_, e₂, s₂, second, rest⟩ := exists_of_bind_ok h
        exact ⟨(budgetSpent_eq_none.1 spent).2.2, e₂, s₂, second, rest⟩

theorem counts_of_advance {s s' : Store} {out : PUnit} (h : advance ctx e s = ((.ok out, e'), s')) : Counts e e' := by
  have yields : Yields e (advance ctx) (fun _ e' => Counts e e') fun _ _ => True :=
    (poisonOnError_yields advanceInner_yields fun _ _ _ => trivial).mono (fun _ _ h => h.1) fun _ _ h => h
  have counts := yields s
  rwa [h] at counts

/-- Completion takes no step back, and takes one unless the run is at its end. -/
theorem steps_le_of_completeFrom {s s' : Store} (h : completeFrom ctx n taken e s = ((.ok ⟨⟩, e'), s')) :
    e.steps ≤ e'.steps := by
  induction n generalizing e s taken with
  | zero => cases h
  | succ n ih =>
  obtain ⟨_, yes, e₁, s₁, ⟨⟩, first, ended, goes⟩ := exists_of_completeFrom h
  have stands := (checkTerminal_yields : Yields e (checkTerminal ctx) _ _) s
  rw [first] at stands
  have steps : e₁.steps = e.steps := stands.2.1.steps
  cases yes with
  | true => exact (ended rfl).1 ▸ steps.ge
  | false =>
      obtain ⟨-, e₂, s₂, second, rest⟩ := goes rfl
      exact steps ▸ (Nat.le_of_lt (counts_of_advance second).steps.ge).trans (ih rest)

variable (judges : ctx.order.Judges WordSized .full gt) (quiet : ∀ s r q, ctx.order.alarm s r q = false)
include judges quiet

/-- Each round of a call does what the run on the left does, or its budget is spent. -/
theorem completeFrom_resumes (h : Trails ctx P n taken e e' out) (budget : e'.config.maxSteps = some k)
    (limit : e.config.timeLimit = b.config.timeLimit) (reach : e.steps = b.steps + taken') (le : taken' ≤ k)
    (late : taken' ≤ taken) (fuel : n ≤ m) :
    Resumes ctx clock k n b out (completeFrom (ctx.timed clock) m taken' e' P.right.store) := by
  induction n generalizing P e e' taken taken' m with
  | zero => cases h.ends
  | succ n ih =>
  obtain ⟨m, rfl⟩ := Nat.exists_eq_add_of_le' fuel
  obtain ⟨_, _, e₁, s₁, ⟨⟩, first, ended, goes⟩ := exists_of_completeFrom h.ends
  rw [← Nat.add_assoc]
  -- the clock is looked at between steps only
  have check : checkTerminal (ctx.timed clock) = checkTerminal ctx := checkTerminal_bounded ctx ctx.fuel clock
  have move : advance (ctx.timed clock) = advance ctx := advance_timed ctx clock
  rcases checkTerminal_moves judges quiet h.twins h.left h.right _ e₁ s₁ first with
    ⟨P₁, yes, e₁', ext₁, rfl, first', work₁, work₁', twins₁, rfl, still⟩ | drained
  swap
  · rw [completeFrom, check]
    exact .drained drained.bind
  rw [completeFrom_succ (check ▸ first'), move]
  cases yes with
  | true =>
      obtain ⟨rfl, store⟩ := ended rfl
      exact .ended twins₁ work₁ store work₁'
  | false =>
  have still := still rfl
  have steps₁ : e₁.steps = e.steps := twins₁.steps.symm.trans (still.steps.trans h.twins.steps)
  have budget₁ : e₁'.config.maxSteps = some k := still.config ▸ budget
  have limit₁' : e₁'.config.timeLimit = b.config.timeLimit := by rw [still.config, h.twins.timeLimit, limit]
  have limit₁ : e₁.config.timeLimit = b.config.timeLimit := twins₁.timeLimit.symm.trans limit₁'
  obtain ⟨untimed, e₂, s₂, second, rest⟩ := goes rfl
  rw [limit₁] at untimed
  have prompt : ∀ j < taken + 1, ¬ Overdue b.config.timeLimit (ctx.elapsed j) := by
    intro j hj
    rcases Nat.lt_succ_iff_lt_or_eq.1 hj with hj | rfl
    · exact limit ▸ h.prompt j hj
    · exact untimed
  have counts := counts_of_advance second
  rw [if_neg Bool.false_ne_true]
  cases spent : budgetSpent (ctx.timed clock) e₁' taken' with
  | some reason =>
      have more := steps_le_of_completeFrom rest
      have counted := counts.steps
      have behind := h.behind ext₁.right.ahead (fun _ _ => List.not_mem_nil) still work₁'
      refine .spent (P := P.behind P₁.right _ _) behind le_rfl reach (by omega) ?_
      -- nobody asks the run to stop, so its steps or its time are spent
      rcases le.eq_or_lt with used | less
      · exact .inl used
      · refine .inr ⟨less, ?_, prompt taken' (Nat.lt_succ_of_le late)⟩
        by_contra early
        have unspent : budgetSpent (ctx.timed clock) e₁' taken' = none := by
          refine budgetSpent_eq_none.2 ⟨congrArg Workspace.stop work₁', ?_, limit₁'.symm ▸ early⟩
          rintro _ again
          cases budget₁.symm.trans again
          exact less
        rw [unspent] at spent
        cases spent
  | none =>
      have less : taken' < k := (budgetSpent_eq_none.1 spent).2.1 k budget₁
      dsimp only
      rcases advance_moves judges quiet twins₁ work₁ work₁' _ e₂ s₂ second with
        ⟨P₂, _, e₂', ext₂, rfl, second', work₂, work₂', twins₂, -⟩ | drained
      · rw [bind_apply, second']
        have budget₂ : e₂'.config.maxSteps = some k := (counts_of_advance second').config ▸ budget₁
        have limit₂ : e₂.config.timeLimit = b.config.timeLimit := counts.config ▸ limit₁
        have reach₂ : e₂.steps = b.steps + (taken' + 1) := by rw [counts.steps, steps₁, reach, Nat.add_assoc]
        have onward : Trails ctx P₂ n (taken + 1) e₂ e₂' out :=
          { ends := rest, left := work₂, right := work₂', twins := twins₂, prompt := limit₂.symm ▸ prompt }
        dsimp only
        exact (ih onward budget₂ limit₂ reach₂ less (Nat.succ_le_succ late) (Nat.le_add_left n m)).mono (Nat.le_succ n)
      · exact .drained drained.bind

end Engine

namespace Engine

variable {P : Parallel} {vs : List Var} {e e' e₁' : Engine} {ctx : Context} {gt : Term → Term → Prop}
variable {n k taken : Nat} {out : Engine × Store} {s : Store}

/-- The same run with a budget of steps for its next call. -/
abbrev budgeted (e : Engine) (k : Nat) : Engine := e.setBudget (some k) e.config.timeLimit

/-- A call of completion takes up the run where it is. -/
theorem Trails.complete (judges : ctx.order.Judges WordSized .full gt) (quiet : ∀ s r q, ctx.order.alarm s r q = false)
    (h : Trails ctx P n taken e e' out) (fuel : n ≤ ctx.fuel) (clock : Nat → Nat) (k : Nat) :
    Resumes ctx clock k n e out (Engine.complete (ctx.timed clock) (e'.budgeted k) P.right.store) := by
  have config := h.twins.config
  have unasked : e'.workspace.stop = false := congrArg Workspace.stop h.right
  have trails : Trails ctx P n taken e ((e'.budgeted k).setStop false) out :=
    { h with
      right := by
        rw [← h.right]
        exact congrArg (fun stop => { e'.workspace with stop }) unasked.symm
      twins :=
        { h.twins with
          config := by
            change ({ e'.config with maxSteps := some k } : Config) = { e.config with maxSteps := some k }
            rw [config] } }
  exact completeFrom_resumes judges quiet trails rfl rfl (Nat.add_zero _).symm (Nat.zero_le k) (Nat.zero_le taken) fuel

/-- Terms are added to the store and variables drawn, and the run does not move. -/
theorem Trails.alone (h : Trails ctx P n taken e e' out) (browses : Browses vs e' e₁') (wf : s.WellFormed)
    (counted : s.Counted) (le : P.right.store ≤ s) (free : ∀ v ∈ P.Drawn, P.names v ∉ vs) :
    e₁'.workspace.supply.source = .listed [] ∨ ∃ P', Trails ctx P' n taken e e₁' out ∧ P'.right.store = s := by
  obtain ⟨still, spent⟩ := browses
  rw [h.right] at spent
  refine (Side.exists_of_spent spent wf counted le).imp_right ?_
  rintro ⟨a, ahead, work, rfl⟩
  exact ⟨P.behind a ahead free, h.behind ahead free still work.symm, rfl⟩

/-- The equations say the same but for the names of variables that were drawn. -/
def Renamed (ρ : Equiv.Perm Var) (x y : Engine × Store) (d d' : Equation) : Prop :=
  ∃ l r, x.2.Means d (l, r) ∧ y.2.Means d' (l.rename ρ, r.rename ρ) ∧ ∀ v, v ∈ l.vars ∨ v ∈ r.vars →
    y.1.workspace.supply.isReserved (ρ v) = x.1.workspace.supply.isReserved v

/-- Two runs came to the same. Variables that the first one may not draw have their names in both, and the others
are renamed. -/
structure Agrees (x y : Engine × Store) : Prop where
  status : y.1.status = x.1.status
  steps : y.1.steps = x.1.steps
  renamed : ∃ ρ : Equiv.Perm Var, (∀ v ∈ x.1.workspace.supply.reserved, ρ v = v) ∧
    List.Forall₂ (Renamed ρ x y) x.1.equations y.1.equations ∧ List.Forall₂ (Renamed ρ x y) x.1.rules y.1.rules
  render : ∀ symbols, y.1.render symbols y.2 = x.1.render symbols x.2

theorem Twins.agrees (h : Twins P e e') (left : e.workspace = P.left.workspace)
    (right : e'.workspace = P.right.workspace) : Agrees (e, P.left.store) (e', P.right.store) := by
  have held : e.workspace.supply.reserved = P.left.reserved := by rw [left]; rfl
  have held' : e'.workspace.supply.reserved = P.right.reserved := by rw [right]; rfl
  have renamed : ∀ d d', P.TwinEq d d' → Renamed P.names (e, P.left.store) (e', P.right.store) d d' := by
    rintro d d' ⟨c, shows⟩
    exact ⟨c.1, c.2, shows.means, shows.means_renamed, fun v hv =>
      isReserved_eq held held' (hv.elim (shows.lhs.known v) (shows.rhs.known v))⟩
  exact
    { status := h.status
      steps := h.steps
      renamed := ⟨P.names, fun v hv => (P.own v (held ▸ hv)).2.1, h.equations.imp renamed,
        h.rules.imp fun d d' rule => renamed d d' rule.twinEq⟩
      render := fun _ => render_eq h held held' }

end Engine

namespace Problem

open Engine

variable {p : Problem} {cmp : HeadComparison} {kind : OrderKind} {ctx : Context}
variable {e : Engine} {s : Store} {ks : List Nat} {out : Engine × Store}

/-- The states and stores that calls of completion lead to each of which has spent its budget: the steps that it may
take, or the time limit by a clock of its own. In between, terms may be added to the store, and terms reduced that have
no variables that were drawn so far. The steps that the calls report are listed, those of the latest call first. -/
inductive Interrupted (p : Problem) (ctx : Context) : List Nat → Engine → Store → Prop
  | start : Interrupted p ctx [] p.start.1 p.start.2
  | complete {ks : List Nat} {e : Engine} {s : Store} {n : Nat} {reason : String} {shot : Snapshot}
      (clock : Nat → Nat) (k : Nat) : Interrupted p ctx ks e s →
      answer (complete (ctx.timed clock)) (e.budgeted k) s = .error (.error ⟨.budgetExceeded n reason, shot⟩) →
      Interrupted p ctx (n :: ks) (after (complete (ctx.timed clock)) (e.budgeted k) s).1
        (after (complete (ctx.timed clock)) (e.budgeted k) s).2
  | intern {ks : List Nat} {e : Engine} {s : Store} (t : Term) : Interrupted p ctx ks e s → t.Over .full →
      Interrupted p ctx ks e (Store.ofTerm t s).2
  | reduce {ks : List Nat} {e : Engine} {s : Store} {r : Ref} {t : Term} (other : Context) :
      Interrupted p ctx ks e s → other.order = p.order → s.Denotes r t → t.Over .full →
      (∀ v ∈ t.vars, ¬ p.start.1.workspace.supply.Draws e.workspace.supply v) →
      Interrupted p ctx ks (after (reduce other r) e s).1 (after (reduce other r) e s).2

theorem Interrupted.runs (h : p.Interrupted ctx ks e s) (same : ctx.order = p.order) : p.Runs .full e s := by
  induction h with
  | start => exact .start
  | complete clock k _ _ ih =>
      exact .call .complete (ctx.timed clock) (.call (.setBudget (some k) _) ctx ih same nofun) same nofun
  | intern t _ full ih => exact .intern t ih full
  | reduce other _ order hd full _ ih =>
      exact .call (.reduce _) other ih order fun r hr => List.mem_singleton.1 hr ▸ ⟨_, hd, full⟩

/-- No variable is drawn for the start. -/
theorem source_start (posed : p.Posed .full) : p.start.1.workspace.supply.source = p.source := by
  have has : p.store.HasAll .full p.worklist := posed.has.of_subset fun eq h => (mem_worklist.1 h).1
  exact (reserveAll_covers { source := p.source } posed.wellFormed has).2.2.1

/-- The default source leaves smaller variables to others. -/
theorem not_draws_of_lt {supply : Supply} {v : Var} (posed : p.Posed .full) (source : p.source = .counting firstFresh)
    (less : v < firstFresh) : ¬ p.start.1.workspace.supply.Draws supply v := by
  rintro ⟨-, offered, -⟩
  rw [source_start posed, source] at offered
  exact Nat.not_le_of_lt less offered

/-- Where a run starts whose source counts, two runs are at the same place. -/
theorem exists_trails_start (posed : p.Posed .full) (counted : p.start.2.Counted)
    (source : p.source = .counting firstFresh)
    (ends : complete ctx p.start.1 p.start.2 = ((.ok ⟨⟩, out.1), out.2)) :
    ∃ P, Trails ctx P ctx.fuel 0 p.start.1 p.start.1 out ∧ P.right.store = p.start.2 := by
  have has : p.store.HasAll .full p.worklist := posed.has.of_subset fun eq h => (mem_worklist.1 h).1
  obtain ⟨wf, -, -, -, covers⟩ := reserveAll_covers { source := p.source } posed.wellFormed has
  let a : Side :=
    { store := p.start.2, wellFormed := wf, counted, next := firstFresh, started := le_rfl, bounded := by decide,
      reserved := p.start.1.workspace.supply.reserved }
  have work : p.start.1.workspace = a.workspace := by
    have counts := (source_start posed).trans source
    rw [Side.workspace, ← counts]
    rfl
  have twins : ∀ d ∈ p.start.1.equations, (Parallel.alone a).TwinEq d d := by
    intro d hd
    obtain ⟨l, r, means, -⟩ := (has.mono posed.wellFormed wf (start_spec (G := .free) posed).2.1) d hd
    have held : ∀ v, v ∈ l.vars ∨ v ∈ r.vars → v ∈ a.reserved := by
      intro v hv
      by_contra free
      obtain ⟨l', r', means', left, right⟩ := covers v free d hd
      obtain rfl := means.1.unique means'.1
      obtain rfl := means.2.unique means'.2
      exact hv.elim left right
    exact Parallel.twinEq_alone means (fun v hv => held v (.inl hv)) fun v hv => held v (.inr hv)
  refine ⟨.alone a, ⟨ends, work, work, ?_, nofun⟩, rfl⟩
  exact ⟨rfl, List.forall₂_same.2 twins, .nil, Parallel.twinSeen_empty _, rfl, rfl⟩

/-- Nobody asks a run with one of the two orders to stop. -/
theorem quiet_ofKind (order : p.order = .ofKind cmp kind) (same : ctx.order = p.order) (s : Store) (r q : Ref) :
    ctx.order.alarm s r q = false := by
  rw [same, order]
  cases kind with
  | kbo => rfl
  | lpo => rfl

/-- A run that was interrupted is at a place that the whole run passes, after as many steps as its calls report,
unless it has no variables left. -/
theorem Interrupted.exists_trails (h : p.Interrupted ctx ks e s) (order : p.order = .ofKind cmp kind)
    (posed : p.Posed .full) (made : Store.Grown .empty p.store) (source : p.source = .counting firstFresh)
    (same : ctx.order = p.order) (ends : Engine.complete ctx p.start.1 p.start.2 = ((.ok ⟨⟩, out.1), out.2)) :
    e.workspace.supply.source = .listed [] ∨ ∃ P n taken e₀, Trails ctx P n taken e₀ e out ∧ P.right.store = s ∧
      n ≤ ctx.fuel ∧ e₀.steps = ks.sum := by
  have judges : p.order.Judges WordSized .full (Order.Tells cmp kind) := order ▸ Order.ofKind_judges cmp kind
  have stored : ∀ {ks e s}, p.Interrupted ctx ks e s → s.WellFormed ∧ s.Counted := by
    intro ks e s h
    have attains : p.Attains cmp kind e s := ⟨order, posed, made, h.runs same⟩
    exact ⟨attains.kept.wellFormed, attains.sized (.refl s) attains.kept.wellFormed⟩
  induction h with
  | start =>
      obtain ⟨P, trails, store⟩ := exists_trails_start posed (stored .start).2 source ends
      exact .inr ⟨P, ctx.fuel, 0, p.start.1, trails, store, le_rfl, rfl⟩
  | @complete ks e s n reason shot clock k before failed ih =>
      rcases ih with dry | ⟨P, n, taken, e₀, trails, rfl, fuel, steps⟩
      · have onward := (Call.run_cut (v := firstFresh) (by decide) (ctx.timed clock) .complete (e.budgeted k) s).1
        exact .inl (onward.dry dry)
      · have resumes := trails.complete (same ▸ judges) (quiet_ofKind order same) fuel clock k
        rw [after]
        rw [answer] at failed
        generalize Engine.complete (ctx.timed clock) (e.budgeted k) P.right.store = run at resumes failed ⊢
        cases resumes with
        | drained drained => exact .inl drained.2
        | ended => cases failed
        | spent trails' fuel' steps' more why =>
            cases failed
            refine .inr ⟨_, _, _, _, trails', rfl, fuel'.trans fuel, ?_⟩
            rw [steps', steps, List.sum_cons, Nat.add_comm]
  | @intern ks e s t before full ih =>
      refine ih.imp_right ?_
      rintro ⟨P, n, taken, e₀, trails, rfl, fuel, steps⟩
      obtain ⟨wf, counted⟩ := stored (before.intern t full)
      have le := (Store.ofTerm_grows t P.right.store).le
      have browses : Browses [] e e := .refl e
      rcases trails.alone browses wf counted le (fun _ _ => List.not_mem_nil) with dry | ⟨P', trails', store⟩
      · rw [trails.right] at dry
        cases dry
      · exact ⟨P', n, taken, e₀, trails', store, fuel, steps⟩
  | @reduce ks e s r t other before order' hd full undrawn ih =>
      rcases ih with dry | ⟨P, n, taken, e₀, trails, rfl, fuel, steps⟩
      · have onward := (Call.run_cut (v := firstFresh) (by decide) other (.reduce r) e s).1
        exact .inl (onward.dry dry)
      · obtain ⟨wf, counted⟩ := stored (before.reduce other order' hd full undrawn)
        have grows : other.order.Grows := order' ▸ judges.grows
        have le := (grows.call (.reduce r) e P.right.store).le
        have browses := reduce_browses (e := e) (quiet_ofKind order order') P.right.wellFormed hd
        -- what was drawn on the right was drawn since the start
        have free : ∀ v ∈ P.Drawn, P.names v ∉ t.vars := by
          rintro v ⟨known, unheld⟩ occurs
          obtain ⟨-, started, passed, outside⟩ := P.drawn v known unheld
          refine undrawn _ occurs ⟨passed.trans_le P.right.bounded, ?_, ?_, ?_⟩
          · rw [source_start posed, source]
            exact started
          · rw [trails.right]
            exact Nat.not_le_of_lt passed
          · rw [trails.right]
            exact outside
        refine (trails.alone browses wf counted le free).imp_right ?_
        rintro ⟨P', trails', store⟩
        exact ⟨P', n, taken, e₀, trails', store, fuel, steps⟩

theorem eq_of_answer {α : Type} {x : EngineM α} {a : α} (ok : answer x e s = .ok a) :
    x e s = ((.ok a, (after x e s).1), (after x e s).2) := by
  rw [← ok]
  rfl

/-- Completion may be interrupted and taken up again as often as one likes, with reductions in between. Unless the
run has no variables left, a call ends where the whole run ends, but for the names of variables that were drawn, or it
is interrupted as well: after the steps that it may take, or by its clock where that of the whole run was not that
far. All interrupted calls together take fewer steps than the whole run. If each of them takes one, and the next call
may take one, then they are fewer than the steps of the whole run. -/
theorem interrupted_agrees (order : p.order = .ofKind cmp kind) (posed : p.Posed .full)
    (made : Store.Grown .empty p.store) (source : p.source = .counting firstFresh) (same : ctx.order = p.order)
    (ends : complete ctx p.start.1 p.start.2 = ((.ok ⟨⟩, out.1), out.2)) (h : p.Interrupted ctx ks e s)
    (clock : Nat → Nat) (k : Nat)
    (supplied : (after (complete (ctx.timed clock)) (e.budgeted k) s).1.workspace.supply.source ≠ .listed []) :
    (answer (complete (ctx.timed clock)) (e.budgeted k) s = .ok ⟨⟩ ∧
        Agrees out (after (complete (ctx.timed clock)) (e.budgeted k) s) ∨
      ∃ n reason shot, answer (complete (ctx.timed clock)) (e.budgeted k) s =
          .error (.error ⟨.budgetExceeded n reason, shot⟩) ∧ ks.sum + n < out.1.steps ∧
        (n = k ∨ n < k ∧ Overdue e.config.timeLimit (clock n) ∧ ¬ Overdue e.config.timeLimit (ctx.elapsed n))) ∧
    ((∀ j ∈ ks, 0 < j) → 0 < k →
      (Overdue e.config.timeLimit (clock 0) → Overdue e.config.timeLimit (ctx.elapsed 0)) →
      out.1.steps ≤ ks.length + 1 → answer (complete (ctx.timed clock)) (e.budgeted k) s = .ok ⟨⟩) := by
  have judges : p.order.Judges WordSized .full (Order.Tells cmp kind) := order ▸ Order.ofKind_judges cmp kind
  have ended : answer (complete (ctx.timed clock)) (e.budgeted k) s = .ok ⟨⟩ ∧
        Agrees out (after (complete (ctx.timed clock)) (e.budgeted k) s) ∨
      ∃ n reason shot, answer (complete (ctx.timed clock)) (e.budgeted k) s =
          .error (.error ⟨.budgetExceeded n reason, shot⟩) ∧ ks.sum + n < out.1.steps ∧
        (n = k ∨ n < k ∧ Overdue e.config.timeLimit (clock n) ∧ ¬ Overdue e.config.timeLimit (ctx.elapsed n)) := by
    rcases h.exists_trails order posed made source same ends with dry | ⟨P, n, taken, e₀, trails, rfl, fuel, steps⟩
    · have onward := (Call.run_cut (v := firstFresh) (by decide) (ctx.timed clock) .complete (e.budgeted k) s).1
      exact absurd (onward.dry dry) supplied
    · have resumes := trails.complete (same ▸ judges) (quiet_ofKind order same) fuel clock k
      have limit := trails.twins.timeLimit
      rw [after] at supplied ⊢
      rw [answer]
      generalize complete (ctx.timed clock) (e.budgeted k) P.right.store = run at resumes supplied ⊢
      cases resumes with
      | drained drained => exact absurd drained.2 supplied
      | ended twins left store right =>
          have agrees := twins.agrees left right
          rw [← store] at agrees
          exact .inl ⟨rfl, agrees⟩
      | @spent P' _ _ j _ _ reason shot _ _ steps' more why =>
          rw [steps', steps] at more
          exact .inr ⟨j, reason, shot, rfl, more, limit.symm ▸ why⟩
  refine ⟨ended, fun positive may timely enough => ?_⟩
  rcases ended with ⟨ok, -⟩ | ⟨n, -, -, -, short, why⟩
  · exact ok
  · have least : ks.length ≤ ks.sum := List.length_le_sum_of_one_le _ positive
    have idle : n = 0 := by omega
    subst idle
    rcases why with rfl | ⟨-, late, early⟩
    · exact absurd may (Nat.lt_irrefl 0)
    · exact absurd (timely late) early

/-- The second equation reduces the left side of the first one. -/
def collapsingPairs : List (Term × Term) :=
  [(word [word [.var 0, letterA], letterB], .var 0), (word [.var 0, letterA], word [.var 0])]

/-- A call may take ten milliseconds. -/
def collapsing : Problem :=
  { ofTerms (.lpo letters []) collapsingPairs with config := { timeLimit := some 10 } }

def collapsingContext : Context := lettersContext collapsing.order

/-- Where the run on it ends. -/
def collapsingEnd : Engine × Store := after (complete collapsingContext) collapsing.start.1 collapsing.start.2

/-- The answer to a call with a budget of its own that needs so many milliseconds for each step. -/
def collapsingAnswer (slow k : Nat) (at_ : Engine × Store) : Except Halt Unit :=
  answer (complete (collapsingContext.timed (slow * ·))) (at_.1.budgeted k) at_.2

/-- Where such a call leads. -/
def collapsingAfter (slow k : Nat) (at_ : Engine × Store) : Engine × Store :=
  after (complete (collapsingContext.timed (slow * ·))) (at_.1.budgeted k) at_.2

/-- Such a call takes one step. -/
def collapsingHalt (slow k : Nat) (at_ : Engine × Store) (reason : String) : Except Halt Unit :=
  .error (.error ⟨.budgetExceeded 1 reason,
    (collapsingAfter slow k at_).1.snapshot letters (collapsingAfter slow k at_).2⟩)

/-- The first call may take one step. -/
def collapsingOnce : Engine × Store := collapsingAfter 0 1 collapsing.start

/-- After it a side of the second equation is reduced. -/
def collapsingReduced : Engine × Store := after (reduce collapsingContext 2) collapsingOnce.1 collapsingOnce.2

/-- The second call may take five steps, but is too slow for that. -/
def collapsingTwice : Engine × Store := collapsingAfter 10 5 collapsingReduced

theorem collapsing_posed : collapsing.Posed (.named letters) := by
  have pair : (word [.var 0, letterA]).Over (.named letters) := word_over (by simp [Term.Over.var, letterA_over])
  have posed : (ofTerms (.lpo letters []) collapsingPairs).Posed (.named letters) := by
    refine posed_ofTerms fun d hd => ?_
    rcases List.mem_pair.1 hd with rfl | rfl
    · exact ⟨word_over (by simp [pair, letterB_over]), .var 0⟩
    · exact ⟨pair, word_over (by simp [Term.Over.var])⟩
  exact ⟨posed.wellFormed, posed.has⟩

theorem interrupted_agrees_collapsing :
    collapsing.Interrupted collapsingContext [1, 1] collapsingTwice.1 collapsingTwice.2 ∧
    collapsingAnswer 0 1 collapsingTwice = .ok ⟨⟩ ∧
    Agrees collapsingEnd (collapsingAfter 0 1 collapsingTwice) := by
  have outcome :
      answer (complete collapsingContext) collapsing.start.1 collapsing.start.2 = .ok ⟨⟩ ∧
      collapsingEnd.1.steps = 3 ∧
      collapsingAnswer 0 1 collapsing.start =
        collapsingHalt 0 1 collapsing.start "step budget of 1 exhausted" ∧
      (2 < collapsingOnce.2.size ∧ collapsingOnce.2.term 2 = word [.var 0, letterA]) ∧
      collapsingAnswer 10 5 collapsingReduced =
        collapsingHalt 10 5 collapsingReduced "time limit reached" ∧
      (after (complete (collapsingContext.timed (0 * ·))) (collapsingTwice.1.budgeted 1)
        collapsingTwice.2).1.workspace.supply.source ≠ .listed [] := by
    decide +kernel
  obtain ⟨ok, steps, once, pair, twice, supplied⟩ := outcome
  have order : collapsing.order = .ofKind (Precedence.compare letters (.ranking [])) .lpo := rfl
  have made : Store.Grown .empty (Equation.listOfTerms collapsingPairs .empty).2 := Store.listOfTerms_grows _ _
  have same : collapsingContext.order = collapsing.order := rfl
  have begun : collapsing.Interrupted collapsingContext [] collapsing.start.1 collapsing.start.2 := .start
  have first : collapsing.Interrupted collapsingContext [1] collapsingOnce.1 collapsingOnce.2 :=
    begun.complete (0 * ·) 1 once
  have undrawn : ∀ v ∈ (word [.var 0, letterA]).vars,
      ¬ collapsing.start.1.workspace.supply.Draws collapsingOnce.1.workspace.supply v := by
    intro v hv
    have zero : v = 0 := by simpa [word, letterA] using hv
    exact not_draws_of_lt collapsing_posed.full rfl (zero ▸ by decide)
  have full : (word [.var 0, letterA]).Over .full := (word_over (by simp [Term.Over.var, letterA_over])).full
  have asked : collapsing.Interrupted collapsingContext [1] collapsingReduced.1 collapsingReduced.2 :=
    first.reduce collapsingContext same pair full undrawn
  have split : collapsing.Interrupted collapsingContext [1, 1] collapsingTwice.1 collapsingTwice.2 :=
    asked.complete (10 * ·) 5 twice
  have ends : complete collapsingContext collapsing.start.1 collapsing.start.2 =
      ((.ok ⟨⟩, collapsingEnd.1), collapsingEnd.2) := eq_of_answer ok
  obtain ⟨agrees | ⟨_, _, _, halted, -⟩, enough⟩ :=
    interrupted_agrees order collapsing_posed.full made rfl same ends split (0 * ·) 1 supplied
  · exact ⟨split, agrees⟩
  · have done := enough (by decide) Nat.one_pos id steps.le
    cases done.symm.trans halted

end Problem
end OrderedCompletion
