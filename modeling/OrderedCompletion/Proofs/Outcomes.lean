import OrderedCompletion.Engine.Query
import OrderedCompletion.Proofs.Actions

/-! What calls do to a run whatever its store has and whatever the order answers. -/

namespace OrderedCompletion

namespace TermM

variable {σ τ ε δ α β : Type}

/-- From the given state, whatever the store, `Q` holds of an outcome and the state that comes with it, `F`
of a failure and the state that it leaves. -/
def Yields (w : σ) (x : TermM σ ε α) (Q : α → σ → Prop) (F : ε → σ → Prop) : Prop :=
  ∀ s, match (x w s).1.1 with
    | .ok a => Q a (x w s).1.2
    | .error h => F h (x w s).1.2

section
variable {w : σ} {x : TermM σ ε α} {f : α → TermM σ ε β}
variable {Q Q' : α → σ → Prop} {R : β → σ → Prop} {F F' : ε → σ → Prop}

theorem Yields.pure {a : α} (h : Q a w) : Yields w (Pure.pure a : TermM σ ε α) Q F := fun _ => h

theorem Yields.throw {e : ε} (h : F e w) : Yields w (throwThe ε e : TermM σ ε α) Q F := fun _ => h

theorem Yields.mono (hx : Yields w x Q F) (ok : ∀ a w', Q a w' → Q' a w')
    (err : ∀ h w', F h w' → F' h w') : Yields w x Q' F' := by
  intro s
  have h := hx s
  cases outcome : (x w s).1.1 with
  | ok a =>
      rw [outcome] at h
      exact ok _ _ h
  | error halt =>
      rw [outcome] at h
      exact err _ _ h

theorem Yields.bind (hx : Yields w x Q F) (hf : ∀ a w', Q a w' → Yields w' (f a) R F) :
    Yields w (x >>= f) R F := by
  intro s
  have h := hx s
  rw [bind_apply]
  cases outcome : (x w s).1.1 with
  | ok a =>
      rw [outcome] at h
      exact hf _ _ h _
  | error halt =>
      rw [outcome] at h
      exact h

theorem Yields.bindLift {y : StoreM α} (h : ∀ a, Yields w (f a) R F) :
    Yields w ((liftM y : TermM σ ε α) >>= f) R F := by
  have done : Yields w (liftM y : TermM σ ε α) (fun _ w' => w' = w) F := fun _ => rfl
  refine done.bind ?_
  rintro a _ rfl
  exact h a

/-- What an action on the store gives is known. -/
theorem Yields.bindLiftOf {y : StoreM α} {P : α → Prop} (hy : ∀ s, P (y s).1)
    (h : ∀ a, P a → Yields w (f a) R F) : Yields w ((liftM y : TermM σ ε α) >>= f) R F := by
  intro s
  rw [bind_apply]
  exact h _ (hy s) _

theorem Yields.bindGet {g : σ → TermM σ ε β} (h : Yields w (g w) R F) : Yields w (get >>= g) R F := by
  intro s
  rw [bind_apply]
  exact h s

theorem Yields.bindModify {m : σ → σ} {g : PUnit → TermM σ ε β} (h : Yields (m w) (g ⟨⟩) R F) :
    Yields w (modify m >>= g) R F := by
  intro s
  rw [bind_apply]
  exact h s

theorem Yields.bindSet {w' : σ} {g : PUnit → TermM σ ε β} (h : Yields w' (g ⟨⟩) R F) :
    Yields w (set w' >>= g) R F := by
  intro s
  rw [bind_apply]
  exact h s

theorem Yields.bindStore {g : Store → TermM σ ε β} (h : ∀ s, Yields w (g s) R F) :
    Yields w (getThe Store >>= g) R F := by
  intro s
  rw [bind_apply]
  exact h s s

theorem Yields.within {part : τ → σ} {put : σ → τ → τ} {fault : ε → δ} {t : τ}
    (h : Yields (part t) x Q F) : Yields t (x.within part put fault)
      (fun a t' => ∃ w', t' = put w' t ∧ Q a w') fun e t' => ∃ d w', e = fault d ∧ t' = put w' t ∧ F d w' := by
  intro s
  have out := h s
  rw [TermM.within]
  rcases hr : x (part t) s with ⟨⟨halt | a, w'⟩, s'⟩
  · rw [hr] at out
    exact ⟨halt, w', rfl, rfl, out⟩
  · rw [hr] at out
    exact ⟨w', rfl, out⟩

end
end TermM

/-- The counters without the one of passes. -/
def Metrics.tally (m : Metrics) : Metrics := { m with reductionPasses := 0 }

/-- The call may not be tried again. -/
def Halt.Final (h : Halt) : Prop := ∀ err, h = .error err → err.isRetryable = false

namespace Workspace

variable {ε : Type} {w : Workspace} {o : Order} {r q : Ref}

theorem ask_yields {F : ε → Workspace → Prop} :
    TermM.Yields w (ask o r q : TermM Workspace ε Bool) (fun _ _ => True) F :=
  .bindStore fun _ => .bindModify fun _ => trivial

theorem askEither_yields {F : ε → Workspace → Prop} :
    TermM.Yields w (askEither o r q : TermM Workspace ε Bool) (fun _ _ => True) F := by
  refine ask_yields.bind fun yes w₁ _ => ?_
  split
  · exact .pure trivial
  · exact ask_yields

end Workspace

namespace Engine

open TermM (Yields)

variable {ctx : Context} {e e' e'' : Engine} {eq ab : Equation} {α β : Type}

/-- Workspace, passes and the pairs seen may differ. -/
structure Unmoved (e e' : Engine) : Prop where
  config : e'.config = e.config
  equations : e'.equations = e.equations
  rules : e'.rules = e.rules
  status : e'.status = e.status
  steps : e'.steps = e.steps
  tally : e'.metrics.tally = e.metrics.tally

theorem Unmoved.refl (e : Engine) : Unmoved e e := ⟨rfl, rfl, rfl, rfl, rfl, rfl⟩

theorem Unmoved.trans (h : Unmoved e e') (h' : Unmoved e' e'') : Unmoved e e'' :=
  ⟨h'.config.trans h.config, h'.equations.trans h.equations, h'.rules.trans h.rules,
    h'.status.trans h.status, h'.steps.trans h.steps, h'.tally.trans h.tally⟩

/-- The action leaves the run where it is, and what stops it is final. -/
abbrev Idles (e : Engine) (x : EngineM α) (Q : α → Prop) : Prop :=
  Yields e x (fun a e' => Unmoved e e' ∧ Q a) fun h e' => Unmoved e e' ∧ h.Final

section
variable {x : EngineM α} {f : α → EngineM β} {Q : α → Prop} {R : β → Prop}

/-- What an action leaves where it is was there before as well. -/
theorem Idles.since (hx : Idles e' x Q) (h : Unmoved e e') :
    Yields e' x (fun a e'' => Unmoved e e'' ∧ Q a) fun halt e'' => Unmoved e e'' ∧ halt.Final :=
  Yields.mono hx (fun _ _ h' => ⟨h.trans h'.1, h'.2⟩) fun _ _ h' => ⟨h.trans h'.1, h'.2⟩

theorem Idles.thread (hx : Idles e x Q) (hf : ∀ a e', Unmoved e e' → Q a → Idles e' (f a) R) :
    Idles e (x >>= f) R :=
  Yields.bind hx fun a e₁ h => (hf a e₁ h.1 h.2).since h.1

theorem Idles.bind (hx : Idles e x Q) (hf : ∀ a e', Q a → Idles e' (f a) R) : Idles e (x >>= f) R :=
  hx.thread fun a e' _ => hf a e'

theorem Idles.pure {a : α} (h : Q a) : Idles e (Pure.pure a) Q := Yields.pure ⟨.refl e, h⟩

end

theorem fail_yields {failure : Failure} {Q : α → Engine → Prop} {F : Halt → Engine → Prop}
    (h : ∀ shot, F (.error ⟨failure, shot⟩) e) : Yields e (fail ctx failure : EngineM α) Q F :=
  .bindGet (.bindStore fun _ => .throw (h _))

theorem final_of_failure {failure : Failure} (h : failure.isRetryable = false) (shot : Snapshot) :
    (Halt.error ⟨failure, shot⟩).Final := by
  rintro _ ⟨⟩
  exact h

theorem fail_idles {failure : Failure} {Q : α → Prop} (h : failure.isRetryable = false) :
    Idles e (fail ctx failure : EngineM α) Q :=
  fail_yields fun shot => ⟨.refl e, final_of_failure h shot⟩

/-- The action leaves the run where it is and never fails. -/
abbrev Sure (e : Engine) (x : EngineM α) : Prop := Yields e x (fun _ e' => Unmoved e e') fun _ _ => False

theorem Sure.idles {x : EngineM α} (h : Sure e x) : Idles e x fun _ => True :=
  Yields.mono h (fun _ _ h => ⟨h, trivial⟩) fun _ _ no => no.elim

theorem Sure.bind {x : EngineM α} {f : α → EngineM β} (hx : Sure e x) (hf : ∀ a e', Sure e' (f a)) :
    Sure e (x >>= f) :=
  Yields.bind hx fun a e₁ h => (hf a e₁).mono (fun _ _ h' => h.trans h') fun _ _ no => no

theorem Sure.pure (a : α) : Sure e (Pure.pure a) := Yields.pure (.refl e)

theorem onWorkspace_sure {x : TermM Workspace Halt α}
    (h : Yields e.workspace x (fun _ _ => True) fun _ _ => False) : Sure e (onWorkspace x) := by
  refine (Yields.within h).mono ?_ ?_
  · rintro a _ ⟨w, rfl, -⟩
    exact ⟨rfl, rfl, rfl, rfl, rfl, rfl⟩
  · rintro halt _ ⟨_, _, -, -, no⟩
    exact no

theorem ask_sure (r q : Ref) : Sure e (ask ctx r q) := onWorkspace_sure Workspace.ask_yields

theorem orientable_sure (eq : Equation) : Sure e (orientable ctx eq) :=
  onWorkspace_sure Workspace.askEither_yields

theorem reserve_sure (r : Ref) : Sure e (reserve r) := .bindLift fun _ => onWorkspace_sure fun _ => trivial

theorem allUnorientable_sure (eqs : List Equation) : Sure e (allUnorientable ctx eqs) := by
  induction eqs generalizing e with
  | nil => exact .pure true
  | cons eq eqs ih =>
      refine (orientable_sure eq).bind fun yes e₁ => ?_
      split
      · exact .pure false
      · exact ih

theorem reduceWith_idles {rules equations : List Equation} {action : Reducer → ReduceM α} :
    Idles e (reduceWith ctx rules equations action) fun _ => True := by
  rw [reduceWith]
  refine .bindGet (.bindLift fun out => .bindSet ?_)
  obtain ⟨outcome, st⟩ := out
  have unmoved : Unmoved e { e with
      workspace := st.workspace
      metrics := e.metrics.recordReductionPasses st.passes } := ⟨rfl, rfl, rfl, rfl, rfl, rfl⟩
  cases outcome with
  | ok a => exact .pure ⟨unmoved, trivial⟩
  | error err =>
      cases err with
      | diverged start last passes =>
          exact .bindStore fun _ => fail_yields fun shot => ⟨unmoved, final_of_failure rfl shot⟩
      | exhausted => exact fail_yields fun shot => ⟨unmoved, final_of_failure rfl shot⟩
      | term err => exact fail_yields fun shot => ⟨unmoved, final_of_failure rfl shot⟩

theorem normalizeSides_idles (eq : Equation) : Idles e (normalizeSides ctx eq) fun _ => True :=
  .bindGet reduceWith_idles

theorem pairsOf_idles (outcome : Except OverlapError (List Equation)) :
    Idles e (pairsOf ctx outcome) fun _ => True := by
  cases outcome with
  | ok pairs => exact .pure trivial
  | error err => exact fail_idles rfl

theorem superpose_idles (eq : Equation) (withEquations : Bool) :
    Idles e (superpose ctx eq withEquations) fun _ => True :=
  .bindGet (.bindLift fun out => .bindSet ((pairsOf_idles out.1).since ⟨rfl, rfl, rfl, rfl, rfl, rfl⟩))

theorem superposeAfresh_idles (eq : Equation) (withEquations : Bool) :
    Idles e (superposeAfresh ctx eq withEquations) fun _ => True :=
  .bindGet (.bindLift fun out => .bindSet ((pairsOf_idles out.1).since ⟨rfl, rfl, rfl, rfl, rfl, rfl⟩))

theorem findOrientable_idles (eqs : List Equation) :
    Idles e (findOrientable ctx eqs) fun out => ∀ d, out = some d → d ∈ eqs := by
  induction eqs generalizing e with
  | nil => exact .pure nofun
  | cons eq eqs ih =>
      refine (orientable_sure eq).idles.bind fun yes e₁ _ => ?_
      split
      · refine .pure ?_
        rintro _ ⟨⟩
        exact List.mem_cons_self
      · exact ih.mono (fun _ _ h => ⟨h.1, fun d hd => List.mem_cons_of_mem _ (h.2 d hd)⟩)
          fun _ _ h => h

theorem pick_idles : Idles e (pick ctx) fun eq => eq ∈ e.equations := by
  refine .bindGet ((findOrientable_idles e.equations).bind fun found e₁ mem => ?_)
  split
  · exact .pure (mem _ rfl)
  · split
    · rename_i eq rest same
      refine .pure ?_
      rw [same]
      exact List.mem_cons_self
    · exact fail_idles rfl

theorem orient_idles (eq : Equation) : Idles e (orient ctx eq) fun _ => True := by
  refine (ask_sure _ _).idles.bind fun yes e₁ _ => ?_
  split
  · exact .pure trivial
  · refine (ask_sure _ _).idles.bind fun yes e₂ _ => ?_
    split
    · exact .pure trivial
    · exact .pure trivial

theorem partitionOrientable_idles (eqs : List Equation) :
    Idles e (partitionOrientable ctx eqs) fun out => (out.1 ++ out.2).Perm eqs := by
  induction eqs generalizing e with
  | nil => exact .pure (.refl _)
  | cons eq eqs ih =>
      refine (orientable_sure eq).idles.bind fun yes e₁ _ => Idles.bind ih fun out e₂ perm => .pure ?_
      cases yes with
      | true => exact perm.cons eq
      | false => exact List.perm_middle.trans (perm.cons eq)

theorem findComposable_idles (before rules : List Equation) :
    Idles e (findComposable ctx before rules) fun out => ∀ before' rule after,
      out = some (before', rule, after) →
        ∃ old, before ++ rules = before' ++ old :: after ∧ rule.lhs = old.lhs := by
  induction rules generalizing e before with
  | nil => exact .pure nofun
  | cons rule rules ih =>
      refine Idles.bind reduceWith_idles fun rhs e₁ _ => ?_
      split
      · refine .pure ?_
        rintro _ _ _ ⟨⟩
        exact ⟨rule, rfl, rfl⟩
      · refine (ih _).mono (fun out _ h => ⟨h.1, fun before' new after same => ?_⟩) fun _ _ h => h
        simpa using h.2 before' new after same

theorem normalizePairs_idles (found pairs : List Equation) :
    Idles e (normalizePairs ctx found pairs) fun _ => True := by
  induction pairs generalizing e found with
  | nil => exact .pure trivial
  | cons pair pairs ih => exact (normalizeSides_idles pair).bind fun eq e₁ _ => ih _

theorem pairsMeet_idles (pairs : List Equation) : Idles e (pairsMeet ctx pairs) fun _ => True := by
  induction pairs generalizing e with
  | nil => exact .pure trivial
  | cons pair pairs ih =>
      refine (normalizeSides_idles pair).bind fun eq e₁ _ => ?_
      split
      · exact ih
      · exact .pure trivial

theorem sourcesJoin_idles (sources : List (Equation × Bool)) :
    Idles e (sourcesJoin ctx sources) fun _ => True := by
  induction sources generalizing e with
  | nil => exact .pure trivial
  | cons source sources ih =>
      refine (superposeAfresh_idles _ _).bind fun pairs e₁ _ =>
        (normalizePairs_idles _ _).bind fun reduced e₂ _ => .bindGet (.bindLift fun left =>
        (pairsMeet_idles left).bind fun yes e₃ _ => ?_)
      split
      · exact ih
      · exact .pure trivial

theorem allPairsJoin_idles : Idles e (allPairsJoin ctx) fun _ => True :=
  .bindGet (sourcesJoin_idles _)

end Engine
end OrderedCompletion
