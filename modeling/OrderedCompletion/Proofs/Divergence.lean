import OrderedCompletion.Engine.Step
import OrderedCompletion.Proofs.Passes

/-! Normalizations that fail only if they take too long. -/

namespace OrderedCompletion

namespace TermM

variable {σ τ ε δ α β : Type} {w : σ} {s : Store} {x : TermM σ ε α} {f : α → TermM σ ε β}
variable {Q : α → σ → Store → Prop} {F P : σ → Store → Prop} {K : ε → Prop}

/-- Whatever the action comes to, `P` holds of what it leaves, and a failure is one of `K`. -/
def Guards (w : σ) (s : Store) (x : TermM σ ε α) (P : σ → Store → Prop) (K : ε → Prop) : Prop :=
  P (x w s).1.2 (x w s).2 ∧ ∀ err, (x w s).1.1 = .error err → K err

theorem Guards.pure {a : α} (h : P w s) : Guards w s (Pure.pure a : TermM σ ε α) P K := ⟨h, nofun⟩

theorem Guards.throw {err : ε} (h : P w s) (known : K err) :
    Guards w s (throwThe ε err : TermM σ ε α) P K :=
  ⟨h, fun _ same => Except.error.inj same ▸ known⟩

/-- What follows a failure is not done. -/
theorem Guards.failed {err : ε} (hx : Guards w s x P K) (outcome : (x w s).1.1 = .error err) :
    P (x w s).1.2 (x w s).2 ∧ ∀ err', (.error err : Except ε β) = .error err' → K err' :=
  ⟨hx.1, fun _ same => hx.2 _ (outcome.trans (congrArg _ (Except.error.inj same)))⟩

theorem Guards.mono {P' : σ → Store → Prop} (hx : Guards w s x P K) (h : ∀ w' s', P w' s' → P' w' s') :
    Guards w s x P' K := ⟨h _ _ hx.1, hx.2⟩

/-- What the first action leaves may be stronger than what is to hold in the end. -/
theorem Guards.bindThen {P' : σ → Store → Prop} (hx : Guards w s x P' K) (spec : Ensures w s x Q F)
    (weaken : ∀ w' s', P' w' s' → P w' s')
    (hf : ∀ a w' s', s'.WellFormed → s ≤ s' → Q a w' s' → P' w' s' → Guards w' s' (f a) P K) :
    Guards w s (x >>= f) P K := by
  obtain ⟨wf, le, spec⟩ := spec
  rw [Guards, bind_apply]
  cases outcome : (x w s).1.1 with
  | ok a =>
      rw [outcome] at spec
      exact hf a _ _ wf le spec hx.1
  | error err => exact (hx.mono weaken).failed outcome

theorem Guards.bind (spec : Ensures w s x Q F) (hx : Guards w s x P K)
    (hf : ∀ a w' s', s'.WellFormed → s ≤ s' → Q a w' s' → P w' s' → Guards w' s' (f a) P K) :
    Guards w s (x >>= f) P K :=
  hx.bindThen spec (fun _ _ h => h) hf

/-- An action that never fails is guarded by what it ensures. -/
theorem Guards.of_ensures (h : Ensures w s x (fun _ => P) fun _ _ => False) : Guards w s x P K := by
  obtain ⟨a, w', s', outcome, -, -, h⟩ := h.exists_eq
  rw [Guards, outcome]
  exact ⟨h, nofun⟩

theorem Guards.bindEnsures (h : Ensures w s x Q fun _ _ => False)
    (hf : ∀ a w' s', s'.WellFormed → s ≤ s' → Q a w' s' → Guards w' s' (f a) P K) :
    Guards w s (x >>= f) P K := by
  obtain ⟨a, w', s', outcome, wf, le, h⟩ := h.exists_eq
  rw [Guards, bind_apply, outcome]
  exact hf a w' s' wf le h

theorem Guards.bindLift {y : StoreM α} {R : α → Store → Prop} (h : s.Ensures y R)
    (hf : ∀ a s', s'.WellFormed → s ≤ s' → R a s' → Guards w s' (f a) P K) :
    Guards w s ((liftM y : TermM σ ε α) >>= f) P K := by
  rw [Guards, bind_apply]
  exact hf _ _ h.1 h.2.1 h.2.2

/-- An action on another state is run beside the state at hand. -/
theorem Guards.bindRun {t : τ} {y : TermM τ δ α} {f : Except δ α × τ → TermM σ ε β}
    {P' : τ → Store → Prop} {K' : δ → Prop} (h : Guards t s y P' K')
    (hf : ∀ out s', P' out.2 s' → (∀ err, out.1 = .error err → K' err) → Guards w s' (f out) P K) :
    Guards w s ((liftM (y.run.run t) : TermM σ ε (Except δ α × τ)) >>= f) P K := by
  rw [Guards, bind_apply]
  exact hf _ _ h.1 h.2

theorem Guards.bindGet {g : σ → TermM σ ε β} (h : Guards w s (g w) P K) :
    Guards w s (get >>= g) P K := by
  rw [Guards, bind_apply]
  exact h

theorem Guards.bindModify {m : σ → σ} {g : PUnit → TermM σ ε β} (h : Guards (m w) s (g ⟨⟩) P K) :
    Guards w s (modify m >>= g) P K := by
  rw [Guards, bind_apply]
  exact h

theorem Guards.bindSet {w' : σ} {g : PUnit → TermM σ ε β} (h : Guards w' s (g ⟨⟩) P K) :
    Guards w s (set w' >>= g) P K := by
  rw [Guards, bind_apply]
  exact h

theorem Guards.modify {m : σ → σ} (h : P (m w) s) : Guards w s (modify m : TermM σ ε PUnit) P K :=
  ⟨h, nofun⟩

theorem Guards.bindStore {g : Store → TermM σ ε β} (h : Guards w s (g s) P K) :
    Guards w s (getThe Store >>= g) P K := by
  rw [Guards, bind_apply]
  exact h

theorem Guards.andThen (hx : Guards w s x P K) (hf : ∀ a w' s', P w' s' → Guards w' s' (f a) P K) :
    Guards w s (x >>= f) P K := by
  rw [Guards, bind_apply]
  cases outcome : (x w s).1.1 with
  | ok a => exact hf a _ _ hx.1
  | error err => exact hx.failed outcome

/-- How much fuel the rest needs may depend on what comes before it. -/
theorem Guards.bindEnough {f : Nat → α → TermM σ ε β} (spec : Ensures w s x Q F) (hx : Guards w s x P K)
    (hf : ∀ a w' s', s'.WellFormed → s ≤ s' → Q a w' s' → P w' s' → ∃ n, Guards w' s' (f n a) P K) :
    ∃ n, Guards w s (x >>= f n) P K := by
  cases outcome : (x w s).1.1 with
  | ok a =>
      obtain ⟨wf, le, spec⟩ := spec
      rw [outcome] at spec
      obtain ⟨n, h⟩ := hf a _ _ wf le spec hx.1
      refine ⟨n, ?_⟩
      rw [Guards, bind_apply, outcome]
      exact h
  | error err =>
      refine ⟨0, ?_⟩
      rw [Guards, bind_apply, outcome]
      exact hx.failed outcome

/-- The elements of a list are treated in turn, and what holds in between goes on to hold. -/
theorem Guards.mapM {g : α → TermM σ ε β} {as : List α} {J : σ → Store → Prop} {F : σ → σ → Store → Prop}
    (wf : s.WellFormed) (inv : J w s) (kept : P w s)
    (spec : ∀ a ∈ as, ∀ w' s', s'.WellFormed → s ≤ s' → J w' s' →
      Ensures w' s' (g a) (fun _ w'' s'' => J w'' s'') (F w'))
    (guards : ∀ a ∈ as, ∀ w' s', s'.WellFormed → s ≤ s' → J w' s' → P w' s' → Guards w' s' (g a) P K) :
    Guards w s (as.mapM g) P K := by
  induction as generalizing w s with
  | nil => exact .pure kept
  | cons a as ih =>
      rw [List.mapM_cons]
      have first := guards a List.mem_cons_self w s wf (le_refl s) inv kept
      refine .bind (spec a List.mem_cons_self w s wf (le_refl s) inv) first
        fun b w₁ s₁ wf₁ le₁ inv₁ kept₁ => ?_
      refine .andThen (ih wf₁ inv₁ kept₁ (fun a' ha w' s' wf' le => ?_) fun a' ha w' s' wf' le => ?_)
        fun _ _ _ => .pure
      · exact spec a' (List.mem_cons_of_mem _ ha) w' s' wf' (le₁.trans le)
      · exact guards a' (List.mem_cons_of_mem _ ha) w' s' wf' (le₁.trans le)

end TermM

open TermM (Guards)

namespace Reducer

variable {rd : Reducer} {s s' : Store} {st : ReduceState} {T P : Term → Term → Prop}
variable {I : Supply → Term → Prop} {H : ReduceState → Store → Prop} {t : Ref} {a b : Term}

/-- The normalization took too long. -/
def Diverged (err : ReduceError) : Prop := ∃ start last passes, err = .diverged start last passes

/-- At the top of the terms of a walk nothing ever fails, and `H` holds of state and store throughout. -/
structure Safe (rd : Reducer) (s : Store) (I : Supply → Term → Prop) (P : Term → Term → Prop)
    (H : ReduceState → Store → Prop) : Prop where
  top : ∀ {st : ReduceState} {s' : Store} {t : Ref} {a : Term}, s'.WellFormed → s ≤ s' → s'.Denotes t a →
    I st.workspace.supply a → H st s' →
    TermM.Ensures st s' (rd.reduceTop t) (fun _ st' s'' => H st' s'') fun _ _ => False
  app : ∀ {st : ReduceState} {s' : Store} {f : Head} {as bs : List Term} {qs : List Ref}, s'.WellFormed →
    I st.workspace.supply (.app f as) → List.Forall₂ P as bs → s'.DenotesAll qs bs → H st s' →
    s'.Ensures (Store.app f qs) fun q s'' => s''.Denotes q (.app f bs) ∧ H st s''
  note : ∀ {st st' : ReduceState} {s' : Store}, H st s' → st'.workspace = st.workspace → H st' s'

theorem Safe.mono (safe : rd.Safe s I P H) (le : s ≤ s') : rd.Safe s' I P H :=
  { safe with top := fun wf le' hd ha => safe.top wf (le.trans le') hd ha }

theorem Safe.settle_guards {call : ReduceCall} {inner : Ref} (safe : rd.Safe s I P H) (wf : s.WellFormed)
    (hi : s.Denotes inner b) (hb : I st.workspace.supply b) (holds : H st s) :
    Guards st s (rd.settle call t inner) H Diverged := by
  rw [settle]
  refine .bindEnsures (safe.top wf (le_refl s) hi hb holds) fun out st₁ s₁ _ _ holds₁ => ?_
  refine .bindStore ?_
  split
  · exact .throw holds₁ ⟨_, _, _, rfl⟩
  · exact .bindModify (.pure (safe.note holds₁ rfl))

theorem Walk.passWithin_guards {call : ReduceCall} {n : Nat} (walk : rd.Walk s I T P) (safe : rd.Safe s I P H)
    (wf : s.WellFormed) (noted : Noted P st s) (hd : s.Denotes t a) (ha : I st.workspace.supply a)
    (deep : t < n) (holds : H st s) : Guards st s (rd.passWithin call n t) H Diverged := by
  induction n generalizing st s t a with
  | zero => exact absurd deep (Nat.not_lt_zero t)
  | succ n ih =>
      rw [Reducer.passWithin]
      refine .bindGet ?_
      split
      · exact .pure holds
      · refine .bindStore ?_
        obtain ⟨node, hnode⟩ := Store.exists_node hd.1
        rw [hnode]
        cases node with
        | var v => exact safe.settle_guards wf hd ha holds
        | app f args =>
            obtain rfl := hd.unique ⟨hd.1, wf.below.term_app hnode⟩
            have inside := walk.arg ha
            have stored : ∀ arg ∈ args, s.Denotes arg (s.term arg) := fun arg harg =>
              Store.denotes_term (Nat.lt_trans (wf.below hnode arg harg) hd.1)
            have passes : ∀ arg ∈ args, ∀ st₁ s₁, s₁.WellFormed → s ≤ s₁ → Noted P st₁ s₁ →
                st.workspace.supply.Later st₁.workspace.supply →
                TermM.Ensures st₁ s₁ (rd.passWithin call n arg) (fun out st' s' => Remains P st₁ st' s' ∧
                  ∃ b, s'.Denotes out b ∧ P (s.term arg) b) (Remains P st₁) :=
              fun arg harg st₁ s₁ wf₁ le₁ noted₁ later₁ => (walk.mono le₁).passWithin wf₁ noted₁
                ((stored arg harg).mono wf wf₁ le₁) (walk.later (inside _ (List.mem_map_of_mem harg)) later₁)
            have kept : Noted P st s ∧ st.workspace.supply.Later st.workspace.supply := ⟨noted, .refl _⟩
            refine .bind (mapM_passes wf noted passes) ?_ ?_
            · refine .mapM
                (J := fun st₁ s₁ => Noted P st₁ s₁ ∧ st.workspace.supply.Later st₁.workspace.supply)
                (F := Remains P) wf kept holds (fun arg harg st₁ s₁ wf₁ le₁ kept₁ => ?_) ?_
              · exact (passes arg harg st₁ s₁ wf₁ le₁ kept₁.1 kept₁.2).mono
                  (fun _ _ _ _ _ h => ⟨h.1.noted, kept₁.2.trans h.1.later⟩) fun _ _ _ _ h => h
              · intro arg harg st₁ s₁ wf₁ le₁ kept₁ holds₁
                refine ih (walk.mono le₁) (safe.mono le₁) wf₁ kept₁.1 ((stored arg harg).mono wf wf₁ le₁)
                  (walk.later (inside _ (List.mem_map_of_mem harg)) kept₁.2) ?_ holds₁
                exact Nat.lt_of_lt_of_le (wf.below hnode arg harg) (Nat.le_of_lt_succ deep)
            · rintro outs st₁ s₁ wf₁ le₁ ⟨⟨-, later₁⟩, bs, hbs, passed⟩ holds₁
              have ha₁ := walk.later ha later₁
              refine .bindLift (safe.app wf₁ ha₁ passed hbs holds₁) ?_
              rintro q s₂ wf₂ le₂ ⟨hq, holds₂⟩
              exact (safe.mono (le₁.trans le₂)).settle_guards wf₂ hq (walk.args ha₁ passed) holds₂

theorem Walk.passUntilFixed_guards {start : Ref} {ceiling left done : Nat} (walk : rd.Walk s I T P)
    (safe : rd.Safe s I P H) (wf : s.WellFormed) (noted : Noted P st s) (hd : s.Denotes t a)
    (ha : I st.workspace.supply a) (holds : H st s) :
    Guards st s (rd.passUntilFixed start ceiling left done t) H Diverged := by
  induction left generalizing st s t a done with
  | zero => exact .throw holds ⟨_, _, _, rfl⟩
  | succ left ih =>
      have deep : t < s.growingBound := Nat.lt_of_lt_of_le hd.1 (Nat.le_add_right _ _)
      rw [Reducer.passUntilFixed, pass]
      refine .bind (.bindStore (walk.passWithin wf noted hd ha))
        (.bindStore (walk.passWithin_guards safe wf noted hd ha deep holds)) ?_
      rintro u st₁ s₁ wf₁ le₁ ⟨⟨noted₁, later₁⟩, b, hb, passed⟩ holds₁
      refine .bindModify ?_
      have counted : H { st₁ with passes := st₁.passes + 1 } s₁ := safe.note holds₁ rfl
      split
      · exact .pure counted
      · exact ih (walk.mono le₁) (safe.mono le₁) wf₁ noted₁ hb (walk.later (walk.passed ha passed) later₁)
          counted

/-- Where nothing fails at the top a normalization can only take too long. -/
theorem Walk.normalize_guards (walk : rd.Walk s I T P) (safe : rd.Safe s I P H) (wf : s.WellFormed)
    (noted : Noted P st s) (hd : s.Denotes t a) (ha : I st.workspace.supply a) (holds : H st s) :
    Guards st s (rd.normalize t) H Diverged := by
  rw [Reducer.normalize]
  exact .bindStore (walk.passUntilFixed_guards safe wf noted hd ha holds)

end Reducer

namespace Engine

variable {ctx : Context} {e : Engine} {s : Store} {α : Type} {rules equations : List Equation}

/-- A normalization took too long. -/
def Diverges (halt : Halt) : Prop :=
  ∃ start last shot, halt = .error ⟨.reductionDivergence start last, shot⟩

theorem reduceWith_guards {action : Reducer → ReduceM α} {H : ReduceState → Store → Prop}
    {P : Engine → Store → Prop}
    (h : ∀ (rd : Reducer) (st : ReduceState), rd.order = ctx.order → rd.rules = rules →
      rd.equations = equations → st.workspace = e.workspace → st.memo = {} →
      Guards st s (action rd) H Reducer.Diverged)
    (onward : ∀ st s', H st s' → P { e with
      workspace := st.workspace, metrics := e.metrics.recordReductionPasses st.passes } s') :
    Guards e s (reduceWith ctx rules equations action) P Diverges := by
  rw [reduceWith]
  refine .bindGet (.bindRun (h _ { workspace := e.workspace } rfl rfl rfl rfl rfl) ?_)
  rintro ⟨outcome, st⟩ s₁ holds known
  refine .bindSet ?_
  have next := onward st s₁ holds
  cases outcome with
  | ok a => exact .pure next
  | error err =>
      obtain ⟨start, last, passes, rfl⟩ := known err rfl
      exact .bindStore (.bindGet (.bindStore (.throw next ⟨_, _, _, rfl⟩)))

end Engine
end OrderedCompletion
