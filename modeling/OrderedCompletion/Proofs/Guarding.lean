import OrderedCompletion.Proofs.Runs
import OrderedCompletion.Proofs.Tracking

/-! Runs do not change if their order says no in stores that they never reach. -/

namespace OrderedCompletion

open TermM (Tracks)

variable {Q : Term → UInt32 → Prop} {o o' : Order}

/-- The same context with another order. -/
abbrev Context.withOrder (ctx : Context) (o : Order) : Context := { ctx with order := o }

namespace Engine

variable {ctx : Context} {α : Type}

theorem fail_tracks (failure : Failure) :
    Tracks Q (fail ctx failure : EngineM α) (fail (ctx.withOrder o') failure) :=
  .bind (.still fun _ _ => rfl) fun _ => .bind (.still fun _ _ => rfl) fun _ => .throw _

theorem poisonOnError_tracks {x y : EngineM α} (h : Tracks Q x y) :
    Tracks Q (poisonOnError x) (poisonOnError y) := by
  intro e s
  obtain ⟨grown, same⟩ := h e s
  rw [poisonOnError_apply, poisonOnError_apply]
  cases outcome : (x e s).1.1 with
  | ok a =>
      refine ⟨grown, fun all => ?_⟩
      rw [same all, outcome]
  | error halt =>
      refine ⟨grown, fun all => ?_⟩
      rw [same all, outcome]

theorem ask_tracks (h : ctx.order.Tracks Q o') (r q : Ref) :
    Tracks Q (ask ctx r q) (ask (ctx.withOrder o') r q) :=
  .within (Workspace.ask_tracks h r q)

theorem orientable_tracks (h : ctx.order.Tracks Q o') (eq : Equation) :
    Tracks Q (orientable ctx eq) (orientable (ctx.withOrder o') eq) :=
  .within (Workspace.askEither_tracks h _ _)

theorem reserve_tracks (r : Ref) : Tracks Q (reserve r) (reserve r) :=
  .bind (.lift (Store.vars_grows r).tracks) fun _ => .within (.still fun _ _ => rfl)

theorem reduceWith_tracks {rules equations : List Equation} {action : Reducer → ReduceM α}
    (h : ∀ r : Reducer, r.order = ctx.order → Tracks Q (action r) (action (r.withOrder o'))) :
    Tracks Q (reduceWith ctx rules equations action)
      (reduceWith (ctx.withOrder o') rules equations action) := by
  refine .bind (.still fun _ _ => rfl) fun e => .bind (.lift (h _ rfl _)) fun out => ?_
  refine .bind (.still fun _ _ => rfl) fun _ => ?_
  split
  · exact .pure _
  · exact .bind (.still fun _ _ => rfl) fun _ => fail_tracks _
  · exact fail_tracks _
  · exact fail_tracks _

theorem normalizeOne_tracks (h : ctx.order.Tracks Q o') (rules equations : List Equation) (r : Ref) :
    Tracks Q (normalizeOne ctx rules equations r) (normalizeOne (ctx.withOrder o') rules equations r) :=
  reduceWith_tracks fun _ same => Reducer.normalize_tracks (same ▸ h) r

theorem normalizeWith_tracks (h : ctx.order.Tracks Q o') (rules equations : List Equation)
    (rs : List Ref) :
    Tracks Q (normalizeWith ctx rules equations rs) (normalizeWith (ctx.withOrder o') rules equations rs) :=
  reduceWith_tracks fun _ same => Reducer.normalizeAll_tracks (same ▸ h) rs

theorem normalizeSides_tracks (h : ctx.order.Tracks Q o') (eq : Equation) :
    Tracks Q (normalizeSides ctx eq) (normalizeSides (ctx.withOrder o') eq) := by
  refine .bind (.still fun _ _ => rfl) fun e => reduceWith_tracks fun r same => ?_
  have both := fun t => Reducer.normalize_tracks (r := r) (same ▸ h) t
  exact .bind (both eq.lhs) fun _ => .bind (both eq.rhs) fun _ => .pure _

theorem superposition_tracks (h : ctx.order.Tracks Q o') (e : Engine) (eq : Equation)
    (withEquations : Bool) : Tracks Q (superposition ctx e eq withEquations)
      (superposition (ctx.withOrder o') e eq withEquations) := by
  unfold superposition
  split
  · exact Superposer.superposeAll_tracks h _
  · exact Superposer.superposeAll_tracks h _

theorem pairsOf_tracks (outcome : Except OverlapError (List Equation)) :
    Tracks Q (pairsOf ctx outcome) (pairsOf (ctx.withOrder o') outcome) := by
  cases outcome with
  | ok pairs => exact .pure pairs
  | error e => exact fail_tracks _

theorem superpose_tracks (h : ctx.order.Tracks Q o') (eq : Equation) (withEquations : Bool) :
    Tracks Q (superpose ctx eq withEquations) (superpose (ctx.withOrder o') eq withEquations) :=
  .bind (.still fun _ _ => rfl) fun e => .bind (.lift (superposition_tracks h e eq withEquations _))
    fun _ => .bind (.still fun _ _ => rfl) fun _ => pairsOf_tracks _

theorem superposeAfresh_tracks (h : ctx.order.Tracks Q o') (eq : Equation) (withEquations : Bool) :
    Tracks Q (superposeAfresh ctx eq withEquations)
      (superposeAfresh (ctx.withOrder o') eq withEquations) :=
  .bind (.still fun _ _ => rfl) fun e => .bind (.lift (superposition_tracks h e eq withEquations _))
    fun _ => .bind (.still fun _ _ => rfl) fun _ => pairsOf_tracks _

theorem findOrientable_tracks (h : ctx.order.Tracks Q o') (eqs : List Equation) :
    Tracks Q (findOrientable ctx eqs) (findOrientable (ctx.withOrder o') eqs) := by
  induction eqs with
  | nil => exact .pure none
  | cons eq eqs ih =>
      refine .bind (orientable_tracks h eq) fun yes => ?_
      split
      · exact .pure _
      · exact ih

theorem pick_tracks (h : ctx.order.Tracks Q o') : Tracks Q (pick ctx) (pick (ctx.withOrder o')) := by
  refine .bind (.still fun _ _ => rfl) fun e => .bind (findOrientable_tracks h _) fun found => ?_
  split
  · exact .pure _
  · split
    · exact .pure _
    · exact fail_tracks _

theorem collapseBy_tracks (h : ctx.order.Tracks Q o') (ab : Equation) (rules : List Equation) :
    Tracks Q (collapseBy ctx ab rules) (collapseBy (ctx.withOrder o') ab rules) := by
  induction rules with
  | nil => exact .pure ()
  | cons rule rules ih =>
      refine .bind (normalizeOne_tracks h _ _ _) fun lhs => ?_
      split
      · exact .bind (.still fun _ _ => rfl) fun _ => ih
      · exact ih

theorem findComposable_tracks (h : ctx.order.Tracks Q o') (before after : List Equation) :
    Tracks Q (findComposable ctx before after) (findComposable (ctx.withOrder o') before after) := by
  induction after generalizing before with
  | nil => exact .pure none
  | cons rule after ih =>
      refine .bind (normalizeOne_tracks h _ _ _) fun rhs => ?_
      split
      · exact .pure _
      · exact ih _

theorem compose_tracks (h : ctx.order.Tracks Q o') (n : Nat) :
    Tracks Q (compose ctx n) (compose (ctx.withOrder o') n) := by
  induction n with
  | zero => exact .throw _
  | succ n ih =>
      refine .bind (.still fun _ _ => rfl) fun e => .bind (findComposable_tracks h _ _) fun found => ?_
      split
      · exact .pure ()
      · exact .bind (.still fun _ _ => rfl) fun _ => ih

theorem simplify_tracks (h : ctx.order.Tracks Q o') :
    Tracks Q (simplify ctx) (simplify (ctx.withOrder o')) :=
  .bind (.still fun _ _ => rfl) fun _ => .bind (normalizeWith_tracks h _ _ _) fun _ =>
    .still fun _ _ => rfl

theorem partitionOrientable_tracks (h : ctx.order.Tracks Q o') (eqs : List Equation) :
    Tracks Q (partitionOrientable ctx eqs) (partitionOrientable (ctx.withOrder o') eqs) := by
  induction eqs with
  | nil => exact .pure _
  | cons eq eqs ih =>
      exact .bind (orientable_tracks h eq) fun _ => .bind ih fun _ => .pure _

theorem sortWorklist_tracks (h : ctx.order.Tracks Q o') :
    Tracks Q (sortWorklist ctx) (sortWorklist (ctx.withOrder o')) := by
  refine .bind (.still fun _ _ => rfl) fun e => ?_
  split
  · exact .bind (partitionOrientable_tracks h _) fun _ => .bind (.still fun _ _ => rfl) fun _ =>
      .still fun _ _ => rfl
  · exact .bind (.still fun _ _ => rfl) fun _ => .still fun _ _ => rfl

theorem orient_tracks (h : ctx.order.Tracks Q o') (eq : Equation) :
    Tracks Q (orient ctx eq) (orient (ctx.withOrder o') eq) := by
  refine .bind (ask_tracks h _ _) fun yes => ?_
  split
  · exact .pure _
  · refine .bind (ask_tracks h _ _) fun yes => ?_
    split
    · exact .pure _
    · exact .pure _

theorem addRule_tracks (h : ctx.order.Tracks Q o') (eq ab : Equation) :
    Tracks Q (addRule ctx eq ab) (addRule (ctx.withOrder o') eq ab) :=
  .bind (.still fun _ _ => rfl) fun _ => .bind (superpose_tracks h ab false) fun _ =>
    .bind (.still fun _ _ => rfl) fun _ => .bind (.lift (filterSubsumed_grows _ _).tracks) fun _ =>
    .bind (.still fun _ _ => rfl) fun _ => .bind (.still fun _ _ => rfl) fun _ => collapseBy_tracks h ab _

theorem collectPairs_tracks (h : ctx.order.Tracks Q o') (sources : List (Equation × Bool)) :
    Tracks Q (collectPairs ctx sources) (collectPairs (ctx.withOrder o') sources) := by
  induction sources with
  | nil => exact .pure _
  | cons source sources ih =>
      exact .bind (superpose_tracks h _ _) fun _ => .bind (.still fun _ _ => rfl) fun _ =>
        .bind (.lift (filterSubsumed_grows _ _).tracks) fun _ => .bind ih fun _ => .pure _

theorem defer_tracks (h : ctx.order.Tracks Q o') (eq : Equation) :
    Tracks Q (defer ctx eq) (defer (ctx.withOrder o') eq) :=
  .bind (.still fun _ _ => rfl) fun _ => .bind (collectPairs_tracks h _) fun _ => .still fun _ _ => rfl

theorem interreduce_tracks (h : ctx.order.Tracks Q o') :
    Tracks Q (interreduce ctx) (interreduce (ctx.withOrder o')) := by
  have rest : ∀ e : Engine, Tracks Q (do
      let equations ← removeSubsumed [] e.equations
      modify fun e => { e with equations } : EngineM Unit) _ := fun e =>
    .bind (.lift (removeSubsumed_grows [] _).tracks) fun _ => .still fun _ _ => rfl
  refine .bind (compose_tracks h _) fun _ => .bind (simplify_tracks h) fun _ =>
    .bind (.still fun _ _ => rfl) fun e => ?_
  split
  · exact .bind (sortWorklist_tracks h) fun _ => .bind (.still fun _ _ => rfl) rest
  · exact .bind (.still fun _ _ => rfl) rest

theorem advanceInner_tracks (h : ctx.order.Tracks Q o') :
    Tracks Q (advanceInner ctx) (advanceInner (ctx.withOrder o')) := by
  refine .bind (.still fun _ _ => rfl) fun _ => .bind (pick_tracks h) fun eq =>
    .bind (orient_tracks h eq) fun direction => ?_
  split
  · exact .bind (addRule_tracks h eq _) fun _ => interreduce_tracks h
  · split
    · exact .still fun _ _ => rfl
    · refine .bind (.still fun _ _ => rfl) fun e => ?_
      have deferred : Tracks Q (do defer ctx eq; interreduce ctx) _ :=
        .bind (defer_tracks h eq) fun _ => interreduce_tracks h
      split
      · exact .bind (.still fun _ _ => rfl) fun _ => .bind (.still fun _ _ => rfl) fun _ =>
          .bind (fail_tracks _) fun _ => deferred
      · exact deferred

theorem advance_tracks (h : ctx.order.Tracks Q o') :
    Tracks Q (advance ctx) (advance (ctx.withOrder o')) :=
  poisonOnError_tracks (advanceInner_tracks h)

theorem allUnorientable_tracks (h : ctx.order.Tracks Q o') (eqs : List Equation) :
    Tracks Q (allUnorientable ctx eqs) (allUnorientable (ctx.withOrder o') eqs) := by
  induction eqs with
  | nil => exact .pure true
  | cons eq eqs ih =>
      refine .bind (orientable_tracks h eq) fun yes => ?_
      split
      · exact .pure false
      · exact ih

theorem normalizePairs_tracks (h : ctx.order.Tracks Q o') (found pairs : List Equation) :
    Tracks Q (normalizePairs ctx found pairs) (normalizePairs (ctx.withOrder o') found pairs) := by
  induction pairs generalizing found with
  | nil => exact .pure found
  | cons pair pairs ih => exact .bind (normalizeSides_tracks h pair) fun _ => ih _

theorem pairsMeet_tracks (h : ctx.order.Tracks Q o') (pairs : List Equation) :
    Tracks Q (pairsMeet ctx pairs) (pairsMeet (ctx.withOrder o') pairs) := by
  induction pairs with
  | nil => exact .pure true
  | cons pair pairs ih =>
      refine .bind (normalizeSides_tracks h pair) fun eq => ?_
      split
      · exact ih
      · exact .pure false

theorem sourcesJoin_tracks (h : ctx.order.Tracks Q o') (sources : List (Equation × Bool)) :
    Tracks Q (sourcesJoin ctx sources) (sourcesJoin (ctx.withOrder o') sources) := by
  induction sources with
  | nil => exact .pure true
  | cons source sources ih =>
      refine .bind (superposeAfresh_tracks h _ _) fun pairs => .bind (normalizePairs_tracks h [] pairs)
        fun reduced => .bind (.still fun _ _ => rfl) fun e =>
        .bind (.lift (filterSubsumed_grows _ _).tracks) fun left => .bind (pairsMeet_tracks h left)
        fun yes => ?_
      split
      · exact ih
      · exact .pure false

theorem checkTerminal_tracks (h : ctx.order.Tracks Q o') :
    Tracks Q (checkTerminal ctx) (checkTerminal (ctx.withOrder o')) := by
  refine .bind (.still fun _ _ => rfl) fun e => ?_
  split
  · exact .pure true
  · exact .pure true
  · exact fail_tracks _
  · refine .bind (.still fun _ _ => rfl) fun e => ?_
    dsimp only
    split
    · exact .bind (.still fun _ _ => rfl) fun _ => .pure true
    · refine .bind (allUnorientable_tracks h _) fun none => ?_
      split
      · exact .pure false
      · have joins : Tracks Q (allPairsJoin ctx) (allPairsJoin (ctx.withOrder o')) :=
          .bind (.still fun _ _ => rfl) fun _ => sourcesJoin_tracks h _
        refine .bind (poisonOnError_tracks joins) fun joined => ?_
        split
        · exact .pure false
        · exact .bind (.still fun _ _ => rfl) fun _ => .pure true

theorem checkBudget_tracks (taken : Nat) :
    Tracks Q (checkBudget ctx taken) (checkBudget (ctx.withOrder o') taken) := by
  refine .bind (.still fun _ _ => rfl) fun e => ?_
  have same : budgetSpent (ctx.withOrder o') e taken = budgetSpent ctx e taken := rfl
  rw [same]
  split
  · exact fail_tracks _
  · exact .pure ()

theorem step_tracks (h : ctx.order.Tracks Q o') : Tracks Q (step ctx) (step (ctx.withOrder o')) := by
  refine .bind (checkTerminal_tracks h) fun ended => ?_
  split
  · exact .pure true
  · exact .bind (advance_tracks h) fun _ => .pure false

theorem completeFrom_tracks (h : ctx.order.Tracks Q o') (fuel taken : Nat) :
    Tracks Q (completeFrom ctx fuel taken) (completeFrom (ctx.withOrder o') fuel taken) := by
  induction fuel generalizing taken with
  | zero => exact .throw _
  | succ fuel ih =>
      refine .bind (checkTerminal_tracks h) fun ended => ?_
      split
      · exact .pure ()
      · exact .bind (checkBudget_tracks taken) fun _ => .bind (advance_tracks h) fun _ => ih _

theorem ensureUsable_tracks : Tracks Q (ensureUsable ctx) (ensureUsable (ctx.withOrder o')) := by
  refine .bind (.still fun _ _ => rfl) fun e => ?_
  split
  · exact fail_tracks _
  · exact .pure ()

theorem equalFrom_tracks (h : ctx.order.Tracks Q o') (eq : Equation) (fuel taken : Nat) :
    Tracks Q (equalFrom ctx eq fuel taken) (equalFrom (ctx.withOrder o') eq fuel taken) := by
  induction fuel generalizing taken with
  | zero => exact .throw _
  | succ fuel ih =>
      refine .bind (normalizeSides_tracks h eq) fun sides => ?_
      split
      · exact .pure true
      refine .bind (checkTerminal_tracks h) fun ended => ?_
      split
      · exact .pure false
      · exact .bind (checkBudget_tracks taken) fun _ => .bind (advance_tracks h) fun _ => ih _

theorem equal_tracks (h : ctx.order.Tracks Q o') (eq : Equation) :
    Tracks Q (equal ctx eq) (equal (ctx.withOrder o') eq) :=
  .bind ensureUsable_tracks fun _ => .bind (reserve_tracks _) fun _ => .bind (reserve_tracks _) fun _ =>
    .bind (.still fun _ _ => rfl) fun _ => equalFrom_tracks h eq _ 0

theorem reduce_tracks (h : ctx.order.Tracks Q o') (r : Ref) :
    Tracks Q (reduce ctx r) (reduce (ctx.withOrder o') r) :=
  .bind ensureUsable_tracks fun _ => .bind (reserve_tracks r) fun _ => .bind (.still fun _ _ => rfl)
    fun _ => normalizeOne_tracks h _ _ r

theorem normalForm_tracks (h : ctx.order.Tracks Q o') (r : Ref) :
    Tracks Q (normalForm ctx r) (normalForm (ctx.withOrder o') r) := by
  refine .bind ensureUsable_tracks fun _ => .bind (.still fun _ _ => rfl) fun e =>
    .bind (.lift (Store.isGround_grows r).tracks) fun ground => ?_
  split
  · split
    · exact .bind (fail_tracks _) fun _ => reduce_tracks h r
    · exact reduce_tracks h r
  · split
    · exact .bind (fail_tracks _) fun _ => reduce_tracks h r
    · exact reduce_tracks h r

/-- A call does the same with both orders. -/
theorem Call.run_tracks (h : ctx.order.Tracks Q o') (c : Call) (e : Engine) (s : Store) :
    Store.Grown s (c.run ctx e s).2 ∧
      ((c.run ctx e s).2.All Q → c.run (ctx.withOrder o') e s = c.run ctx e s) := by
  have of_tracks : ∀ {α : Type} {x y : EngineM α}, Tracks Q x y →
      Store.Grown s (after x e s).2 ∧ ((after x e s).2.All Q → after y e s = after x e s) := by
    intro α x y h
    refine ⟨(h e s).1, fun all => ?_⟩
    rw [after, after, (h e s).2 all]
  cases c with
  | step => exact of_tracks (step_tracks h)
  | complete => exact of_tracks (.bind (.still fun _ _ => rfl) fun _ => completeFrom_tracks h _ 0)
  | equal eq => exact of_tracks (equal_tracks h eq)
  | reduce r => exact of_tracks (reduce_tracks h r)
  | normalForm r => exact of_tracks (normalForm_tracks h r)
  | setBudget maxSteps timeLimit => exact ⟨.refl s, fun _ => rfl⟩
  | cancel => exact ⟨.refl s, fun _ => rfl⟩

end Engine

namespace Order

open Classical in
/-- Answers as an order does in stores all of whose terms have a property, and no in other stores. -/
noncomputable def guarded (Q : Term → UInt32 → Prop) (o : Order) : Order where
  greater := fun r q s => if s.All Q then o.greater r q s else (false, s)
  alarm := o.alarm

/-- Calls only make stores grow. -/
theorem Grows.call {ctx : Context} (h : ctx.order.Grows) (c : Engine.Call) (e : Engine) (s : Store) :
    Store.Grown s (c.run ctx e s).2 := by
  have tracks : ctx.order.Tracks (fun _ _ => True) ctx.order := h.tracks
  exact (c.run_tracks tracks e s).1

theorem Grows.tracks_guarded (h : o.Grows) : o.Tracks Q (o.guarded Q) where
  alarm := rfl
  greater := fun r q s => ⟨h r q s, fun all => if_pos (all.of_grown (h r q s))⟩

/-- A guarded order has to obey a gauge only where it is not guarded. -/
theorem guarded_obeys {G : Gauge} (lax : ¬ G.strict)
    (obeys : ∀ {s : Store} {r q : Ref} {a b : Term}, s.WellFormed → s.All Q → s.Denotes r a →
      s.Denotes q b → a.Over G.sig → b.Over G.sig →
      s.Ensures (o.greater r q) fun yes _ => yes = true → G.gt a b) : (o.guarded Q).Obeys G := by
  intro s r q a b wf ha hb inSig inSig'
  by_cases all : s.All Q
  · have same : (o.guarded Q).greater r q s = o.greater r q s := if_pos all
    rw [Store.Ensures, same]
    obtain ⟨wf', le, yes⟩ := obeys wf all ha hb inSig inSig'
    exact ⟨wf', le, yes, fun strict => absurd strict lax⟩
  · have same : (o.guarded Q).greater r q s = (false, s) := if_neg all
    rw [Store.Ensures, same]
    exact ⟨wf, le_rfl, fun yes => absurd yes Bool.false_ne_true, fun strict => absurd strict lax⟩

end Order

namespace Problem

open Engine

/-- The states and stores that calls about terms over a signature lead to, if terms are added to the store
only one by one. -/
inductive Runs (p : Problem) (sig : Signature) : Engine → Store → Prop
  | start : Runs p sig p.start.1 p.start.2
  | intern {e : Engine} {s : Store} (t : Term) : Runs p sig e s → t.Over .full →
      Runs p sig e (Store.ofTerm t s).2
  | call {e : Engine} {s : Store} (c : Call) (ctx : Context) : Runs p sig e s →
      ctx.order = p.order → (∀ r ∈ c.refs, ∃ a, s.Denotes r a ∧ a.Over sig) →
      Runs p sig (c.run ctx e s).1 (c.run ctx e s).2

variable {p : Problem} {sig : Signature} {G : Gauge} {e : Engine} {s : Store}

/-- The same problem with another order. -/
abbrev withOrder (p : Problem) (o : Order) : Problem := { p with order := o }

theorem grown_ofTerms {pairs : List (Term × Term)} : Store.Grown .empty (ofTerms o pairs).store :=
  Store.listOfTerms_grows pairs .empty

theorem Runs.full (h : p.Runs sig e s) : p.Runs .full e s := by
  induction h with
  | start => exact .start
  | intern t _ full ih => exact .intern t ih full
  | call c ctx _ same known ih =>
      refine .call c ctx ih same fun r hr => ?_
      obtain ⟨a, ha, inSig⟩ := known r hr
      exact ⟨a, ha, inSig.full⟩

theorem Runs.grown (h : p.Runs sig e s) (grows : p.order.Grows) : Store.Grown p.store s := by
  induction h with
  | start => exact ofAxioms_grows _ _ _ _
  | intern t _ _ ih => exact ih.trans (Store.ofTerm_grows t _)
  | @call e s c ctx _ same _ ih =>
      have grows' : ctx.order.Grows := same ▸ grows
      exact ih.trans (grows'.call c e s)

/-- A run whose terms have a property is a run with any order that answers the same about such terms. -/
theorem Runs.tracked (h : p.Runs sig e s) (tracks : p.order.Tracks Q o') (all : s.All Q) :
    (p.withOrder o').Runs sig e s := by
  induction h with
  | start => exact .start
  | intern t _ full ih => exact .intern t (ih (all.of_grown (Store.ofTerm_grows t _))) full
  | @call e s c ctx _ same known ih =>
      obtain ⟨grown, agree⟩ := c.run_tracks (same ▸ tracks : ctx.order.Tracks Q o') e s
      rw [← agree all]
      exact .call c (ctx.withOrder o') (ih (all.of_grown grown)) rfl known

theorem Runs.kept (h : p.Runs G.sig e s) (posed : p.Posed G.sig) (obeys : p.order.Obeys G)
    (distinct : G.distinct → p.start.1.workspace.supply.Distinct) : Kept G p e s := by
  suffices reached : p.Reaches G.sig e s from reached.kept posed obeys distinct
  induction h with
  | start => exact .start
  | @intern e s t _ full ih =>
      obtain ⟨wf, le, -⟩ := Store.ofTerm_spec (ih.kept posed obeys distinct).wellFormed full
      exact .grow ih wf le
  | call c ctx _ same known ih => exact .call c ctx ih same known

/-- Every rule decreases as a gauge says if the order obeys it in stores like the one that is reached. -/
theorem Runs.rules_gt (h : p.Runs G.sig e s) (posed : p.Posed G.sig) (grows : p.order.Grows)
    (lax : ¬ G.strict) (distinct : G.distinct → p.start.1.workspace.supply.Distinct) (all : s.All Q)
    (obeys : ∀ {s : Store} {r q : Ref} {a b : Term}, s.WellFormed → s.All Q → s.Denotes r a →
      s.Denotes q b → a.Over G.sig → b.Over G.sig →
      s.Ensures (p.order.greater r q) fun yes _ => yes = true → G.gt a b) :
    s.WellFormed ∧ s.HasAll G.sig e.rules ∧ ∀ l r, (l, r) ∈ s.theory e.rules → G.gt l r := by
  have kept := Runs.kept (h.tracked grows.tracks_guarded all) ⟨posed.wellFormed, posed.has⟩
    (Order.guarded_obeys lax obeys) distinct
  have fine := kept.presents.fine
  exact ⟨kept.wellFormed, fine.rules, fun l r hl => (fine.descends l r hl).2.2⟩

end Problem
end OrderedCompletion
