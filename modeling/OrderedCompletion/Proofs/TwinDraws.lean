import OrderedCompletion.Proofs.Answers
import OrderedCompletion.Proofs.Freshness
import OrderedCompletion.Proofs.Twins

/-! Fresh variables and questions to the order, side by side. -/

namespace OrderedCompletion

open Term

namespace Side

/-- The next draw may give the variable. -/
structure Offers (a : Side) (x : Var) : Prop where
  ahead : a.next ≤ x
  bounded : x < lastVar
  free : x ∉ a.reserved

variable {a : Side} {x : Var}

/-- The run after a draw. -/
def drawn (a : Side) (x : Var) (offers : a.Offers x) : Side where
  store := (Store.var x a.store).2
  wellFormed := (Store.var_spec a.wellFormed x).1
  counted := a.counted.grown (Store.intern_grows _ _) (Store.var_spec a.wellFormed x).1.below
  next := x + 1
  started := a.started.trans (Nat.le_succ_of_le offers.ahead)
  bounded := offers.bounded
  reserved := a.reserved

theorem later_drawn (offers : a.Offers x) : a.Later (a.drawn x offers) :=
  ⟨(Store.var_spec a.wellFormed x).2.1, Nat.le_succ_of_le offers.ahead, rfl⟩

theorem denotes_drawn (offers : a.Offers x) :
    (a.drawn x offers).store.Denotes (Store.var x a.store).1 (.var x) := (Store.var_spec a.wellFormed x).2.2

/-- A draw succeeds, or nothing is left. -/
theorem drawVar_run (a : Side) :
    (∃ x, ∃ offers : a.Offers x, Workspace.drawVar a.workspace a.store =
      ((.ok (Store.var x a.store).1, (a.drawn x offers).workspace), (a.drawn x offers).store)) ∨
    TermM.Drained (Workspace.drawVar a.workspace a.store) := by
  have source : a.workspace.supply = ⟨.counting a.next, a.reserved⟩ := rfl
  rw [Workspace.drawVar_apply, source, Supply.draw]
  cases found : (VarSource.counting a.next).nextOutside a.reserved (VarSource.counting a.next).remaining with
  | none => exact .inr ⟨⟨_, rfl⟩, rfl⟩
  | some next =>
      obtain ⟨x, rest⟩ := next
      obtain ⟨ahead, rfl⟩ := VarSource.nextOutside_counting found
      exact .inl ⟨x, ⟨ahead, (VarSource.nextOutside_passes found).1, (VarSource.nextOutside_spec found).1⟩, rfl⟩

end Side

namespace Parallel

variable {P P' : Parallel} {x y v : Var} {r r' q q' : Ref} {a b : Term} {c : Term × Term} {e d : Equation}
variable {σ σ' : Subst} {V : Set Var} {θ : Var → Term}

theorem not_known (P : Parallel) (offers : P.left.Offers x) : x ∉ P.known := by
  intro known
  by_cases own : x ∈ P.left.reserved
  · exact offers.free own
  · exact Nat.not_lt_of_le offers.ahead (P.drawn x known own).1

/-- No variable has the name that the draw gives. -/
theorem names_ne (P : Parallel) (offers : P.right.Offers y) (hv : v ∈ P.known) : P.names v ≠ y := by
  rintro rfl
  by_cases own : v ∈ P.left.reserved
  · obtain ⟨-, same, held⟩ := P.own v own
    exact offers.free (same.symm ▸ held)
  · exact Nat.not_lt_of_le offers.ahead (P.drawn v hv own).2.2.1

theorem names_drawn (left : P.left.Offers x) (right : P.right.Offers y) (hv : v ∈ P.known) :
    (P.names.trans (Equiv.swap (P.names x) y)) v = P.names v := by
  refine Equiv.swap_apply_of_ne_of_ne (fun same => P.not_known left ?_) (P.names_ne right hv)
  exact P.names.injective same ▸ hv

theorem name_drawn (P : Parallel) (x y : Var) : (P.names.trans (Equiv.swap (P.names x) y)) x = y :=
  Equiv.swap_apply_left _ _

/-- Both runs draw a variable. -/
def draws (P : Parallel) (left : P.left.Offers x) (right : P.right.Offers y) : Parallel where
  left := P.left.drawn x left
  right := P.right.drawn y right
  names := P.names.trans (Equiv.swap (P.names x) y)
  known := insert x P.known
  own := by
    intro v hv
    obtain ⟨known, same, held⟩ := P.own v hv
    exact ⟨.inr known, (names_drawn left right known).trans same, held⟩
  drawn := by
    rintro v (rfl | known) free
    · rw [name_drawn]
      exact ⟨Nat.lt_succ_self v, P.right.started.trans right.ahead, Nat.lt_succ_self y, right.free⟩
    · obtain ⟨less, started, less', free'⟩ := P.drawn v known free
      rw [names_drawn left right known]
      exact ⟨less.trans_le (Nat.le_succ_of_le left.ahead), started, less'.trans_le (Nat.le_succ_of_le right.ahead),
        free'⟩
  mono := by
    rintro v ⟨rfl | hv, free⟩ w ⟨rfl | hw, free'⟩ less
    · exact absurd less (Nat.lt_irrefl _)
    · exact absurd (less.trans ((P.drawn w hw free').1.trans_le left.ahead)) (Nat.lt_irrefl _)
    · rw [name_drawn, names_drawn left right hv]
      exact (P.drawn v hv free).2.2.1.trans_le right.ahead
    · rw [names_drawn left right hv, names_drawn left right hw]
      exact P.mono ⟨hv, free⟩ ⟨hw, free'⟩ less

theorem extends_draws (left : P.left.Offers x) (right : P.right.Offers y) : P.Extends (P.draws left right) where
  left := Side.later_drawn left
  right := Side.later_drawn right
  known := Set.subset_insert x P.known
  names := fun _ hv => names_drawn left right hv

end Parallel

open Parallel TermM

namespace Workspace

variable {P : Parallel} {w w' : Workspace} {r r' q q' : Ref} {a b : Term} {c : Term × Term} {e d : Equation}
variable {σ σ' : Subst} {V : Set Var} {θ : Var → Term}

theorem drawVar_mirrors : Mirrors P w w' drawVar drawVar fun P' r q _ _ => ∃ x ∈ P'.Drawn, P'.Reads (.var x) r q := by
  rintro rfl rfl r w₁ s₁ run
  rcases P.left.drawVar_run with ⟨x, left, run'⟩ | ⟨⟨err, failed⟩, -⟩
  · cases run.symm.trans run'
    refine P.right.drawVar_run.imp_left ?_
    rintro ⟨y, right, run''⟩
    have here : (P.draws left right).Reads (.var x) (Store.var x P.left.store).1 (Store.var y P.right.store).1 := by
      refine ⟨Side.denotes_drawn left, ?_, fun v hv => .inl (mem_vars_var.1 hv)⟩
      rw [rename_var, draws, name_drawn]
      exact Side.denotes_drawn right
    exact ⟨P.draws left right, _, _, extends_draws left right, rfl, run'', rfl, rfl, x, ⟨.inl rfl, left.free⟩, here⟩
  · rw [run] at failed
    cases failed

/-- Variables that stand in the same order get fresh names that do. -/
theorem drawRenaming_mirrors {vs : List Var} (couples : P.Couples V θ σ σ') (inside : ∀ v ∈ vs, v ∈ V)
    (done : ∀ v ∈ V, v ∈ vs ∨ ∀ w ∈ (θ v).vars, w ∈ P.Drawn) :
    Mirrors P w w' (drawRenaming σ vs) (drawRenaming σ' (vs.map P.names)) fun P' τ τ' _ _ =>
      ∃ η, P'.Couples V η τ τ' ∧ ∀ v ∈ V, ∀ w ∈ (η v).vars, w ∈ P'.Drawn := by
  induction vs generalizing P w w' σ σ' θ with
  | nil => exact .pure ⟨θ, couples, fun v hv => (done v hv).resolve_left List.not_mem_nil⟩
  | cons v vs ih =>
      refine drawVar_mirrors.bind ?_
      rintro P₁ r q w₁ w₁' ext ⟨x, drawn, reads⟩
      have known : ∀ v ∈ V, P₁.names v = P.names v := fun v hv => ext.names v (couples.inside hv)
      have couples₁ := (couples.mono ext).bind (v := v) reads
      rw [known v (inside v List.mem_cons_self)] at couples₁
      have names : vs.map P.names = vs.map P₁.names :=
        List.map_congr_left fun v hv => (known v (inside v (List.mem_cons_of_mem _ hv))).symm
      rw [names]
      refine ih couples₁ (fun v hv => inside v (List.mem_cons_of_mem _ hv)) fun u hu => ?_
      by_cases here : u = v
      · right
        rw [if_pos here]
        exact fun z hz => mem_vars_var.1 hz ▸ drawn
      · rw [if_neg here]
        refine (done u hu).imp (fun old => ?_) fun old z hz => ext.drawn (old z hz)
        exact (List.mem_cons.1 old).resolve_left here

theorem renameApart_mirrors (h : P.Shows c e d) :
    Mirrors P w w' (renameApart e) (renameApart d) fun P' e' d' _ _ => ∃ c', P'.Shows c' e' d' ∧
      ∀ v, v ∈ c'.1.vars ∨ v ∈ c'.2.vars → v ∈ P'.Drawn := by
  have known : {v | v ∈ c.1.vars ∨ v ∈ c.2.vars} ⊆ P.known := fun v hv => hv.elim (h.lhs.known v) (h.rhs.known v)
  rw [renameApart, renameApart]
  refine .bindLift (equationVars_does h) ?_
  rintro P₁ vs _ ext₁ ⟨rfl, rfl⟩
  have couples := couples_empty (known.trans ext₁.known)
  refine (drawRenaming_mirrors couples (fun v hv => ?_) fun v hv => .inl ?_).bind ?_
  · exact List.mem_append.1 (mem_sortVars.1 hv)
  · exact mem_sortVars.2 (List.mem_append.2 hv)
  · rintro P₂ τ τ' w₂ w₂' ext₂ ⟨η, couples₂, fresh⟩
    refine .lift (equationApply_does couples₂ ((h.mono ext₁).mono ext₂) fun v hv => hv) fun P₃ e' d' ext₃ both => ?_
    have drawn : ∀ {t : Term} {v : Var}, (∀ v ∈ t.vars, v ∈ c.1.vars ∨ v ∈ c.2.vars) → v ∈ (t.subst η).vars →
        v ∈ P₃.Drawn := by
      intro t v sub hv
      obtain ⟨u, hu, hv⟩ := mem_vars_subst.1 hv
      exact ext₃.drawn (fresh u (sub u hu) v hv)
    have left : ∀ v ∈ (c.1.subst η).vars, v ∈ P₃.Drawn := fun v => drawn fun _ => .inl
    have right : ∀ v ∈ (c.2.subst η).vars, v ∈ P₃.Drawn := fun v => drawn fun _ => .inr
    exact ⟨_, shows_of_drawn both.1 both.2 left right, fun v hv => hv.elim (left v) (right v)⟩

section
variable {ε : Type} {o : Order} {gt : Term → Term → Prop} (judges : o.Judges WordSized .full gt)
variable (quiet : ∀ s r q, o.alarm s r q = false)
include judges quiet

/-- The order does not look at names. -/
theorem ask_mirrors (h : P.Reads a r q) (h' : P.Reads b r' q') :
    Mirrors P w w' (ask o r r' : TermM Workspace ε Bool) (ask o q q') fun _ yes yes' _ _ =>
      yes' = yes ∧ (yes = true ↔ gt a b) := by
  have unasked : ∀ (s : Store) (r q : Ref) (w : Workspace), { w with stop := w.stop || o.alarm s r q } = w :=
    fun s r q w => by rw [quiet, Bool.or_false]
  have answers : P.Does (o.greater r r') (o.greater q q') fun _ yes yes' => yes' = yes ∧ (yes = true ↔ gt a b) := by
    refine does (judges.answers P.left.wellFormed P.left.counted h.left h'.left (h.left.over_full P.left.wellFormed)
      (h'.left.over_full P.left.wellFormed)) (judges.grows r r') (judges.answers P.right.wellFormed P.right.counted
      h.right h'.right (h.right.over_full P.right.wellFormed) (h'.right.over_full P.right.wellFormed))
      (judges.grows q q') fun P' yes yes' _ _ _ left right => ⟨?_, left⟩
    exact Bool.eq_iff_iff.2 (right.trans (judges.blind.rename_iff.trans left.symm))
  rw [ask, ask]
  exact .bindStore (.bindModify (unasked _ _ _ _) (unasked _ _ _ _) (.lift answers fun _ _ _ _ h => h))

theorem askEither_mirrors (h : P.Reads a r q) (h' : P.Reads b r' q') :
    Mirrors P w w' (askEither o r r' : TermM Workspace ε Bool) (askEither o q q') fun _ yes yes' _ _ =>
      yes' = yes := by
  rw [askEither, askEither]
  refine (ask_mirrors judges quiet h h').bind ?_
  rintro P₁ _ yes w₁ w₁' ext ⟨rfl, -⟩
  cases yes with
  | true => exact .pure rfl
  | false => exact (ask_mirrors judges quiet (h'.mono ext) (h.mono ext)).mono fun _ _ _ _ _ _ h => h.1

end

end Workspace
end OrderedCompletion
