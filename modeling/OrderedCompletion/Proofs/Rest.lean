import OrderedCompletion.Proofs.Guarding

/-! A complete run asks its order nothing any more, and no call changes what it has come to. -/

namespace OrderedCompletion

namespace TermM

variable {σ ε α β : Type} {P : σ → Prop} {x y : TermM σ ε α} {f g : α → TermM σ ε β}

/-- Where a property holds both actions do the same, and the property remains. -/
def Agrees (P : σ → Prop) (x y : TermM σ ε α) : Prop := ∀ w s, P w → y w s = x w s ∧ P (x w s).1.2

theorem Agrees.pure (a : α) : Agrees P (Pure.pure a : TermM σ ε α) (Pure.pure a) :=
  fun _ _ h => ⟨rfl, h⟩

theorem Agrees.throw (err : ε) : Agrees P (throwThe ε err : TermM σ ε α) (throwThe ε err) :=
  fun _ _ h => ⟨rfl, h⟩

theorem Agrees.lift (z : StoreM α) : Agrees P (liftM z : TermM σ ε α) (liftM z) := fun _ _ h => ⟨rfl, h⟩

theorem Agrees.set {w : σ} (h : P w) : Agrees P (set w : TermM σ ε PUnit) (set w) :=
  fun _ _ _ => ⟨rfl, h⟩

theorem Agrees.modify {m : σ → σ} (keeps : ∀ w, P w → P (m w)) :
    Agrees P (modify m : TermM σ ε PUnit) (modify m) :=
  fun w _ h => ⟨rfl, keeps w h⟩

theorem Agrees.bind (hx : Agrees P x y) (hf : ∀ a, Agrees P (f a) (g a)) :
    Agrees P (x >>= f) (y >>= g) := by
  intro w s h
  obtain ⟨same, kept⟩ := hx w s h
  rw [bind_apply, bind_apply, same]
  cases (x w s).1.1 with
  | ok a => exact hf a _ _ kept
  | error err => exact ⟨rfl, kept⟩

theorem Agrees.bindGet {f g : σ → TermM σ ε β} (h : ∀ w, P w → Agrees P (f w) (g w)) :
    Agrees P (get >>= f) (get >>= g) :=
  fun w s known => h w known w s known

end TermM

open TermM (Agrees)

namespace Reducer

variable {r : Reducer} {o : Order}

/-- Without equations the order is not asked. -/
theorem reduceTop_withOrder (none : r.equations = []) (t : Ref) :
    (r.withOrder o).reduceTop t = r.reduceTop t := by
  have rules : (r.withOrder o).rules = r.rules := rfl
  rw [reduceTop, reduceTop, none, rules]
  simp only [List.flatMap_nil, List.foldlM_nil]

theorem settle_withOrder (none : r.equations = []) (call : ReduceCall) (t inner : Ref) :
    (r.withOrder o).settle call t inner = r.settle call t inner := by
  rw [settle, settle, reduceTop_withOrder none]

theorem passWithin_withOrder (none : r.equations = []) (call : ReduceCall) (n : Nat) :
    (r.withOrder o).passWithin call n = r.passWithin call n := by
  induction n with
  | zero => rfl
  | succ n ih =>
      funext t
      simp only [passWithin, ih, settle_withOrder none]

theorem passUntilFixed_withOrder (none : r.equations = []) (start : Ref) (ceiling left done : Nat) (t : Ref) :
    (r.withOrder o).passUntilFixed start ceiling left done t =
      r.passUntilFixed start ceiling left done t := by
  induction left generalizing done t with
  | zero => rfl
  | succ left ih => simp only [passUntilFixed, pass, passWithin_withOrder none, ih]

theorem normalize_withOrder (none : r.equations = []) (t : Ref) :
    (r.withOrder o).normalize t = r.normalize t := by
  simp only [normalize, passUntilFixed_withOrder none]

end Reducer

namespace Engine

/-- The run is complete, with some rules and nothing left to be treated. -/
structure Rests (rules : List Equation) (e : Engine) : Prop where
  complete : e.status = .complete
  nothing : e.equations = []
  rules : e.rules = rules

variable {ctx : Context} {o : Order} {rules : List Equation} {e : Engine} {α : Type}

theorem Rests.active (h : e.Rests rules) : e.activeEquations = [] := by
  rw [activeEquations, h.nothing, ite_self]

theorem fail_rests (failure : Failure) :
    Agrees (Rests rules) (fail ctx failure : EngineM α) (fail (ctx.withOrder o) failure) :=
  fun _ _ rests => ⟨rfl, rests⟩

theorem reduceWith_rests {used : List Equation} {action : Reducer → ReduceM α}
    (h : ∀ r : Reducer, r.equations = [] → action (r.withOrder o) = action r) :
    Agrees (Rests rules) (reduceWith ctx used [] action)
      (reduceWith (ctx.withOrder o) used [] action) := by
  refine .bindGet fun e rests => ?_
  have same := h { order := ctx.order, rules := used, maxPasses := e.config.maxReductionPasses,
                   maxGrowth := e.config.maxTermGrowth } rfl
  dsimp only at same ⊢
  rw [same]
  refine .bind (.lift _) fun out => .bind (.set ⟨rests.complete, rests.nothing, rests.rules⟩) fun _ => ?_
  split
  · exact .pure _
  · exact .bind (fun _ _ rests => ⟨rfl, rests⟩) fun _ => fail_rests _
  · exact fail_rests _
  · exact fail_rests _

theorem normalizeSides_rests (eq : Equation) :
    Agrees (Rests rules) (normalizeSides ctx eq) (normalizeSides (ctx.withOrder o) eq) := by
  refine .bindGet fun e rests => ?_
  rw [rests.active]
  refine reduceWith_rests fun r none => ?_
  simp only [Reducer.normalize_withOrder none]

theorem ensureUsable_rests : Agrees (Rests rules) (ensureUsable ctx) (ensureUsable (ctx.withOrder o)) := by
  refine .bindGet fun e _ => ?_
  split
  · exact fail_rests _
  · exact .pure ()

theorem reserve_rests (r : Ref) : Agrees (Rests rules) (reserve r) (reserve r) :=
  .bind (.lift _) fun _ _ _ rests => ⟨rfl, rests.complete, rests.nothing, rests.rules⟩

theorem setStop_rests (stop : Bool) :
    Agrees (Rests rules) (modify (·.setStop stop) : EngineM PUnit) (modify (·.setStop stop)) :=
  .modify fun _ rests => ⟨rests.complete, rests.nothing, rests.rules⟩

/-- A complete run is at its end. -/
theorem Rests.bind_checkTerminal (h : e.Rests rules) (f : Bool → EngineM α) (s : Store) :
    (checkTerminal ctx >>= f) e s = f true e s := by
  obtain ⟨config, equations, rules, workspace, seen, status, metrics, steps⟩ := e
  obtain rfl := h.complete
  rfl

theorem Rests.step_eq (h : e.Rests rules) (s : Store) : step ctx e s = ((.ok true, e), s) := by
  rw [step, h.bind_checkTerminal, if_pos rfl]
  rfl

theorem Rests.completeFrom_eq {fuel taken : Nat} (h : e.Rests rules) (s : Store) :
    completeFrom ctx (fuel + 1) taken e s = ((.ok (), e), s) := by
  rw [completeFrom, h.bind_checkTerminal, if_pos rfl]
  rfl

theorem completeFrom_rests (fuel taken : Nat) :
    Agrees (Rests rules) (completeFrom ctx fuel taken) (completeFrom (ctx.withOrder o) fuel taken) := by
  cases fuel with
  | zero => exact .throw _
  | succ fuel =>
      intro e s rests
      rw [rests.completeFrom_eq, rests.completeFrom_eq]
      exact ⟨rfl, rests⟩

theorem equalFrom_rests (eq : Equation) (fuel taken : Nat) :
    Agrees (Rests rules) (equalFrom ctx eq fuel taken) (equalFrom (ctx.withOrder o) eq fuel taken) := by
  cases fuel with
  | zero => exact .throw _
  | succ fuel =>
      refine .bind (normalizeSides_rests eq) fun sides => ?_
      split
      · exact .pure true
      · intro e s rests
        rw [rests.bind_checkTerminal, rests.bind_checkTerminal, if_pos rfl, if_pos rfl]
        exact ⟨rfl, rests⟩

theorem equal_rests (eq : Equation) : Agrees (Rests rules) (equal ctx eq) (equal (ctx.withOrder o) eq) :=
  .bind ensureUsable_rests fun _ => .bind (reserve_rests _) fun _ => .bind (reserve_rests _) fun _ =>
    .bind (setStop_rests false) fun _ => equalFrom_rests eq _ 0

theorem reduce_rests (r : Ref) : Agrees (Rests rules) (reduce ctx r) (reduce (ctx.withOrder o) r) := by
  refine .bind ensureUsable_rests fun _ => .bind (reserve_rests r) fun _ => .bindGet fun e rests => ?_
  rw [rests.active]
  exact reduceWith_rests fun _ none => Reducer.normalize_withOrder none r

theorem normalForm_rests (r : Ref) :
    Agrees (Rests rules) (normalForm ctx r) (normalForm (ctx.withOrder o) r) := by
  refine .bind ensureUsable_rests fun _ => .bindGet fun e _ => .bind (.lift _) fun ground => ?_
  split
  · split
    · exact .bind (fail_rests _) fun _ => reduce_rests r
    · exact reduce_rests r
  · split
    · exact .bind (fail_rests _) fun _ => reduce_rests r
    · exact reduce_rests r

/-- A call on a complete run does the same with any order, and the run remains complete. -/
theorem Call.run_rests (c : Call) (s : Store) (h : e.Rests rules) :
    c.run (ctx.withOrder o) e s = c.run ctx e s ∧ (c.run ctx e s).1.Rests rules := by
  have of_agrees : ∀ {α : Type} {x y : EngineM α}, Agrees (Rests rules) x y →
      after y e s = after x e s ∧ (after x e s).1.Rests rules := by
    intro α x y agrees
    obtain ⟨same, rests⟩ := agrees e s h
    exact ⟨by rw [after, after, same], rests⟩
  cases c with
  | step => exact of_agrees fun e s rests => ⟨by rw [rests.step_eq, rests.step_eq], by rwa [rests.step_eq]⟩
  | complete => exact of_agrees (.bind (setStop_rests false) fun _ => completeFrom_rests _ 0)
  | equal eq => exact of_agrees (equal_rests eq)
  | reduce r => exact of_agrees (reduce_rests r)
  | normalForm r => exact of_agrees (normalForm_rests r)
  | setBudget maxSteps timeLimit => exact ⟨rfl, h.complete, h.nothing, h.rules⟩
  | cancel => exact ⟨rfl, h.complete, h.nothing, h.rules⟩

/-- The states and stores that calls about terms over a signature lead to from given ones. Between calls terms
may be added to the store, and each call may have its own order, bounds and way to write symbols. -/
inductive GoesOn (sig : Signature) (e : Engine) (s : Store) : Engine → Store → Prop
  | refl : GoesOn sig e s e s
  | grow {e' : Engine} {s' s'' : Store} : GoesOn sig e s e' s' → s''.WellFormed → s' ≤ s'' →
      GoesOn sig e s e' s''
  | call {e' : Engine} {s' : Store} (c : Call) (ctx : Context) : GoesOn sig e s e' s' →
      (∀ r ∈ c.refs, ∃ a, s'.Denotes r a ∧ a.Over sig) →
      GoesOn sig e s (c.run ctx e' s').1 (c.run ctx e' s').2

/-- A complete run goes on to be complete and to say what its axioms say. -/
theorem GoesOn.kept {G : Gauge} {p : Problem} {e' : Engine} {s s' : Store} (h : GoesOn G.sig e s e' s')
    (posed : p.Posed G.sig) (obeys : o.Obeys G) (grows : o.Grows) (kept : p.Kept G e s)
    (rests : e.Rests rules) : p.Kept G e' s' ∧ e'.Rests rules ∧ s ≤ s' := by
  induction h with
  | refl => exact ⟨kept, rests, le_rfl⟩
  | grow _ wf le ih =>
      obtain ⟨kept', rests', le'⟩ := ih
      exact ⟨kept'.grow posed wf le, rests', le'.trans le⟩
  | @call e' s' c ctx _ known ih =>
      obtain ⟨kept', rests', le'⟩ := ih
      have asked : (ctx.withOrder o).order.Obeys G := obeys
      have grown : (ctx.withOrder o).order.Grows := grows
      have ⟨same, still⟩ :
          c.run (ctx.withOrder o) e' s' = c.run ctx e' s' ∧ (c.run ctx e' s').1.Rests rules :=
        c.run_rests s' rests'
      have next := kept'.call posed asked c known
      have le := (grown.call c e' s').le
      rw [same] at next le
      exact ⟨next, still, le'.trans le⟩

end Engine
end OrderedCompletion
