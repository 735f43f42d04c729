import OrderedCompletion.Proofs.Lifecycle
import OrderedCompletion.Proofs.TwinEngine

/-! What a reduction takes out of a supply that counts. -/

namespace OrderedCompletion

open Working TermM

/-- Variables were drawn, and nothing but some of the given ones was reserved. A source that counts went on
counting, or it has run out. -/
structure Workspace.Spent (vs : List Var) (w w' : Workspace) : Prop where
  stop : w'.stop = w.stop
  kept : w.supply.reserved ⊆ w'.supply.reserved
  reserved : ∀ v ∈ w'.supply.reserved, v ∈ w.supply.reserved ∨ v ∈ vs
  dry : w.supply.source = .listed [] → w'.supply.source = .listed []
  counts : ∀ n ≤ lastVar, w.supply.source = .counting n →
    w'.supply.source = .listed [] ∨ ∃ m ≤ lastVar, n ≤ m ∧ w'.supply.source = .counting m

namespace Workspace

variable {vs : List Var} {w w' w'' : Workspace}

theorem Spent.refl (w : Workspace) : Spent vs w w :=
  ⟨rfl, List.Subset.refl _, fun _ hv => .inl hv, fun dry => dry, fun n le counts => .inr ⟨n, le, le_rfl, counts⟩⟩

theorem Spent.trans (h : Spent vs w w') (h' : Spent vs w' w'') : Spent vs w w'' where
  stop := h'.stop.trans h.stop
  kept := List.Subset.trans h.kept h'.kept
  reserved := fun v hv => (h'.reserved v hv).elim (h.reserved v) .inr
  dry := fun dry => h'.dry (h.dry dry)
  counts := by
    intro n le counts
    rcases h.counts n le counts with dry | ⟨m, le', later, counts'⟩
    · exact .inl (h'.dry dry)
    · exact (h'.counts m le' counts').imp_right fun ⟨k, le, later', counts⟩ => ⟨k, le, later.trans later', counts⟩

/-- A draw takes a source that counts past the variable that it gives. -/
theorem spent_draw (w : Workspace) : Spent vs w { w with supply := w.supply.draw.2 } := by
  have reserved : w.supply.draw.2.reserved = w.supply.reserved := by
    rw [Supply.draw]
    split
    · rfl
    · rfl
  refine ⟨rfl, reserved ▸ List.Subset.refl _, fun v hv => .inl (reserved ▸ hv), fun dry => ?_, fun n le counts => ?_⟩
  · change w.supply.draw.2.source = _
    rw [Supply.draw, dry]
    rfl
  · change w.supply.draw.2.source = _ ∨ ∃ m ≤ lastVar, n ≤ m ∧ w.supply.draw.2.source = _
    rw [Supply.draw, counts]
    cases found : (VarSource.counting n).nextOutside w.supply.reserved (VarSource.counting n).remaining with
    | none => exact .inl rfl
    | some next =>
        obtain ⟨x, rest⟩ := next
        obtain ⟨ahead, rfl⟩ := VarSource.nextOutside_counting found
        exact .inr ⟨x + 1, (VarSource.nextOutside_passes found).1, Nat.le_succ_of_le ahead, rfl⟩

theorem spent_reserve (w : Workspace) {us : List Var} (sub : us ⊆ vs) :
    Spent vs w { w with supply := w.supply.reserve us } where
  stop := rfl
  kept := (w.supply.reserve_onward us).reserved
  reserved := fun _ hv => (Supply.mem_reserve.1 hv).imp_right fun hv => sub hv
  dry := fun dry => dry
  counts := fun n le counts => .inr ⟨n, le, le_rfl, counts⟩

end Workspace

namespace TermM

variable {σ τ ε δ α β : Type} [Working σ] [Working τ] {vs : List Var} {x : TermM σ ε α} {f : α → TermM σ ε β}

/-- The action draws variables at most, also if it fails. -/
def Spends (vs : List Var) (x : TermM σ ε α) : Prop :=
  ∀ w s, (workspace w).Spent vs (workspace (x w s).1.2)

theorem Spends.pure (a : α) : Spends vs (Pure.pure a : TermM σ ε α) := fun _ _ => .refl _

theorem Spends.throw (err : ε) : Spends vs (throwThe ε err : TermM σ ε α) := fun _ _ => .refl _

theorem Spends.lift (y : StoreM α) : Spends vs (liftM y : TermM σ ε α) := fun _ _ => .refl _

theorem Spends.store : Spends vs (getThe Store : TermM σ ε Store) := fun _ _ => .refl _

theorem Spends.get {g : σ → TermM σ ε β} (h : ∀ w, Spends vs (g w)) : Spends vs (get >>= g) := fun w => h w w

theorem Spends.modify {m : σ → σ} (h : ∀ w, (workspace w).Spent vs (workspace (m w))) :
    Spends vs (modify m : TermM σ ε PUnit) := fun w _ => h w

theorem Spends.bind (hx : Spends vs x) (hf : ∀ a, Spends vs (f a)) : Spends vs (x >>= f) := by
  intro w s
  have first := hx w s
  rw [bind_apply]
  cases (x w s).1.1 with
  | ok a => exact first.trans (hf a _ _)
  | error err => exact first

/-- An action on a part of the state that has the workspace. -/
theorem Spends.within {part : τ → σ} {put : σ → τ → τ} {fault : ε → δ} (hx : Spends vs x)
    (parts : ∀ t, workspace (part t) = workspace t) (puts : ∀ w t, workspace (put w t) = workspace w) :
    Spends vs (x.within part put fault) := by
  intro t s
  have inner := hx (part t) s
  rw [parts] at inner
  unfold TermM.within
  rcases outcome : x (part t) s with ⟨⟨err | a, w⟩, s'⟩
  · rw [outcome] at inner
    rwa [puts]
  · rw [outcome] at inner
    rwa [puts]

theorem Spends.foldlM {as : List α} {b : β} {k : β → α → TermM σ ε β} (h : ∀ b a, Spends vs (k b a)) :
    Spends vs (as.foldlM k b) := by
  induction as generalizing b with
  | nil => exact .pure b
  | cons a as ih =>
      rw [List.foldlM_cons]
      exact (h b a).bind fun _ => ih

theorem Spends.mapM {as : List α} (h : ∀ a, Spends vs (f a)) : Spends vs (as.mapM f) := by
  induction as with
  | nil => exact .pure []
  | cons a as ih =>
      rw [List.mapM_cons]
      exact (h a).bind fun b => ih.bind fun bs => .pure (b :: bs)

end TermM

variable {vs : List Var}

namespace Workspace

theorem drawVar_spends : Spends vs drawVar := by
  intro w s
  have drawn : w.Spent vs _ := w.spent_draw
  rw [drawVar_apply]
  rcases outcome : w.supply.draw with ⟨err | x, supply⟩
  · rwa [outcome] at drawn
  · rwa [outcome] at drawn

variable {ε : Type} {o : Order} (quiet : ∀ s r q, o.alarm s r q = false)
include quiet

theorem ask_spends (r q : Ref) : Spends vs (ask o r q : TermM Workspace ε Bool) := by
  refine .bind .store fun s => .bind (.modify fun w => ?_) fun _ => .lift _
  rw [quiet, Bool.or_false]
  exact .refl w

end Workspace

namespace Reducer

variable {α : Type}

theorem onWorkspace_spends {x : TermM Workspace Exhausted α} (h : Spends vs x) : Spends vs (onWorkspace x) :=
  .within h (fun _ => rfl) fun _ _ => rfl

theorem bindClashes_spends (targetVars : List Var) (σ : Subst) (us : List Var) :
    Spends vs (bindClashes targetVars σ us) := by
  induction us generalizing σ with
  | nil => exact .pure σ
  | cons x us ih =>
      rw [bindClashes]
      split
      · exact .bind (onWorkspace_spends Workspace.drawVar_spends) fun _ => ih _
      · exact ih σ

theorem instantiate_spends (rule : Equation) (σ : Subst) (t : Ref) : Spends vs (instantiate rule σ t) :=
  .bind (.lift _) fun us => .bind (.lift _) fun ws => .bind (bindClashes_spends us σ ws) fun _ => .lift _

theorem useRule_spends (t : Ref) (rule : Equation) : Spends vs (useRule t rule) := by
  refine .bind (.lift _) fun outcome => ?_
  split
  · exact instantiate_spends rule _ t
  · exact .pure t

section
variable {o : Order} (quiet : ∀ s r q, o.alarm s r q = false)
include quiet

theorem useEquation_spends (t : Ref) (e : Equation) : Spends vs (useEquation o t e) := by
  refine .bind (.lift _) fun outcome => ?_
  split
  · refine .bind (instantiate_spends e _ t) fun u =>
      .bind (onWorkspace_spends (Workspace.ask_spends quiet t u)) fun yes => ?_
    split
    · exact .pure u
    · exact .pure t
  · exact .pure t

end

variable {r : Reducer} (quiet : ∀ s t q, r.order.alarm s t q = false)
include quiet

theorem reduceTop_spends (t : Ref) : Spends vs (r.reduceTop t) :=
  .bind (.foldlM useRule_spends) fun _ => .foldlM (useEquation_spends quiet)

theorem settle_spends (call : ReduceCall) (t inner : Ref) : Spends vs (r.settle call t inner) := by
  refine .bind (reduceTop_spends quiet inner) fun out => .bind .store fun s => ?_
  split
  · exact .throw _
  · exact .bind (.modify fun w => .refl _) fun _ => .pure out

theorem passWithin_spends (call : ReduceCall) (n : Nat) (t : Ref) : Spends vs (r.passWithin call n t) := by
  induction n generalizing t with
  | zero => exact .throw _
  | succ n ih =>
      rw [passWithin]
      refine .get fun st => ?_
      split
      · exact .pure _
      · refine .bind .store fun s => ?_
        split
        · exact settle_spends quiet call t t
        · exact .bind (.mapM ih) fun inner => .bind (.lift _) fun _ => settle_spends quiet call t _
        · exact .throw _

theorem passUntilFixed_spends (start : Ref) (ceiling left done : Nat) (t : Ref) :
    Spends vs (r.passUntilFixed start ceiling left done t) := by
  induction left generalizing done t with
  | zero => exact .throw _
  | succ left ih =>
      rw [passUntilFixed]
      refine .bind (.bind .store fun s => passWithin_spends quiet _ _ t) fun u => ?_
      refine .bind (.modify fun w => .refl _) fun _ => ?_
      split
      · exact .pure t
      · exact ih (done + 1) u

theorem normalize_spends (t : Ref) : Spends vs (r.normalize t) :=
  .bind .store fun _ => passUntilFixed_spends quiet t _ _ 0 t

end Reducer

namespace Engine

variable {ctx : Context} {e : Engine} {s : Store} {r : Ref} {a : Term} {α : Type}

theorem reduced_apply (outcome : Except ReduceError α) (e : Engine) (s : Store) :
    (reduced ctx outcome e s).1.2 = e := by
  cases outcome with
  | ok a => rfl
  | error err =>
      obtain ⟨halt, failed⟩ := (reduced_error err e s : ∃ halt, (reduced ctx (.error err) : EngineM α) e s = _)
      rw [failed]

/-- Equations, rules and the pairs seen stay as they are, and variables are drawn at most. -/
def Browses (vs : List Var) (e e' : Engine) : Prop := Still e e' ∧ e.workspace.Spent vs e'.workspace

theorem Browses.refl (e : Engine) : Browses vs e e := ⟨.refl e, .refl _⟩

theorem Browses.trans {e₁ e₂ : Engine} (h : Browses vs e e₁) (h' : Browses vs e₁ e₂) : Browses vs e e₂ :=
  ⟨h.1.trans h'.1, h.2.trans h'.2⟩

theorem normalizeOne_browses (quiet : ∀ s r q, ctx.order.alarm s r q = false) (rules equations : List Equation) :
    Browses vs e (normalizeOne ctx rules equations r e s).1.2 := by
  rw [normalizeOne, reduceWith_apply rfl, reduced_apply]
  exact ⟨⟨⟨rfl, rfl, rfl, rfl, rfl, rfl⟩, rfl⟩, Reducer.normalize_spends quiet r { workspace := e.workspace } s⟩

/-- A reduction reserves the variables of its term and draws others. -/
theorem reduce_browses (quiet : ∀ s r q, ctx.order.alarm s r q = false) (wf : s.WellFormed) (hd : s.Denotes r a) :
    Browses a.vars e (after (reduce ctx r) e s).1 := by
  obtain ⟨-, -, vars, -⟩ := Store.vars_spec wf hd
  have reserved : Browses a.vars e (reserve r e s).1.2 :=
    ⟨⟨⟨rfl, rfl, rfl, rfl, rfl, rfl⟩, rfl⟩, e.workspace.spent_reserve fun v hv => vars ▸ hv⟩
  by_cases failed : e.status = .failed
  · have stops : (after (reduce ctx r) e s).1 = e := by
      rw [after, reduce, ensureUsable, bind_assoc, get_bind, if_pos failed]
      rfl
    rw [stops]
    exact .refl e
  · rw [after, reduce, ensureUsable, bind_assoc, get_bind, if_neg failed, pure_bind, bind_apply]
    cases (reserve r e s).1.1 with
    | error halt => exact reserved
    | ok _ =>
        dsimp only
        rw [get_bind]
        exact reserved.trans (normalizeOne_browses quiet _ _)

end Engine
end OrderedCompletion
