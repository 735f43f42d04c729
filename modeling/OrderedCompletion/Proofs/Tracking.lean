import OrderedCompletion.Proofs.Actions
import OrderedCompletion.Proofs.Growth

/-! Actions that ask an order, when another order answers differently only in stores which they never
reach. -/

namespace OrderedCompletion

/-- The first action makes any store grow, and where it leads to a store all of whose terms have a property
the second one does the same. -/
def StoreM.Tracks {α : Type} (Q : Term → UInt32 → Prop) (x y : StoreM α) : Prop :=
  ∀ s, Store.Grown s (x s).2 ∧ ((x s).2.All Q → y s = x s)

/-- The same of actions with a state of their own. -/
def TermM.Tracks {σ ε α : Type} (Q : Term → UInt32 → Prop) (x y : TermM σ ε α) : Prop :=
  ∀ w, StoreM.Tracks Q (x w) (y w)

/-- The same of orders. -/
structure Order.Tracks (Q : Term → UInt32 → Prop) (o o' : Order) : Prop where
  alarm : o'.alarm = o.alarm
  greater : ∀ r q, StoreM.Tracks Q (o.greater r q) (o'.greater r q)

variable {Q : Term → UInt32 → Prop}

/-- Asking the order only makes stores grow. -/
def Order.Grows (o : Order) : Prop := ∀ r q, StoreM.Grows (o.greater r q)

theorem StoreM.Grows.tracks {α : Type} {x : StoreM α} (h : Grows x) : Tracks Q x x :=
  fun s => ⟨h s, fun _ => rfl⟩

theorem Order.Grows.tracks {o : Order} (h : o.Grows) : o.Tracks Q o := ⟨rfl, fun r q => (h r q).tracks⟩

namespace TermM

variable {σ τ ε δ α β : Type} {x y : TermM σ ε α} {f g : α → TermM σ ε β}

/-- What makes stores grow ensures this as well. -/
theorem Ensures.grown {w : σ} {s : Store} {P : α → σ → Store → Prop} {F : σ → Store → Prop}
    (h : Ensures w s x P F) (tracks : Tracks Q x y) :
    Ensures w s x (fun a w' s' => P a w' s' ∧ Store.Grown s s') F := by
  obtain ⟨wf, le, h⟩ := h
  refine ⟨wf, le, ?_⟩
  have grown := (tracks w s).1
  cases outcome : (x w s).1.1 with
  | ok a =>
      rw [outcome] at h
      exact ⟨h, grown⟩
  | error err =>
      rw [outcome] at h
      exact h

theorem Tracks.still (h : ∀ w s, (x w s).2 = s) : Tracks Q x x :=
  fun w => StoreM.Grows.tracks (.still fun s => by rw [h])

theorem Tracks.pure (a : α) : Tracks Q (Pure.pure a : TermM σ ε α) (Pure.pure a) := .still fun _ _ => rfl

theorem Tracks.throw (e : ε) : Tracks Q (throwThe ε e : TermM σ ε α) (throwThe ε e) := .still fun _ _ => rfl

theorem Tracks.result (a : Except ε α) : Tracks Q (liftM a : TermM σ ε α) (liftM a) := by
  cases a with
  | ok a => exact .pure a
  | error e => exact .throw e

theorem Tracks.bind (hx : Tracks Q x y) (hf : ∀ a, Tracks Q (f a) (g a)) :
    Tracks Q (x >>= f) (y >>= g) := by
  intro w s
  obtain ⟨grown, same⟩ := hx w s
  rw [bind_apply, bind_apply]
  cases outcome : (x w s).1.1 with
  | error e =>
      refine ⟨grown, fun all => ?_⟩
      rw [same all, outcome]
  | ok a =>
      obtain ⟨grown', same'⟩ := hf a (x w s).1.2 (x w s).2
      refine ⟨grown.trans grown', fun all => ?_⟩
      rw [same (all.of_grown grown'), outcome]
      exact same' all

theorem Tracks.lift {x y : StoreM α} (h : StoreM.Tracks Q x y) :
    Tracks Q (liftM x : TermM σ ε α) (liftM y) := by
  intro w s
  refine ⟨(h s).1, fun all => ?_⟩
  change ((Except.ok (y s).1, w), (y s).2) = ((Except.ok (x s).1, w), (x s).2)
  rw [(h s).2 all]

theorem Tracks.within {part : τ → σ} {put : σ → τ → τ} {fault : ε → δ} (h : Tracks Q x y) :
    Tracks Q (x.within part put fault) (y.within part put fault) := by
  intro w s
  obtain ⟨grown, same⟩ := h (part w) s
  unfold TermM.within
  rcases outcome : x (part w) s with ⟨⟨_ | a, w'⟩, s'⟩
  · rw [outcome] at grown same
    exact ⟨grown, fun all => by rw [same all]⟩
  · rw [outcome] at grown same
    exact ⟨grown, fun all => by rw [same all]⟩

theorem Tracks.adapt {fault : ε → δ} (h : Tracks Q x y) :
    Tracks Q (ExceptT.adapt fault x : TermM σ δ α) (ExceptT.adapt fault y) := by
  intro w s
  refine ⟨(h w s).1, fun all => ?_⟩
  have outcome : ∀ z : TermM σ ε α, (ExceptT.adapt fault z : TermM σ δ α) w s =
      (((z w s).1.1.mapError fault, (z w s).1.2), (z w s).2) := fun _ => rfl
  rw [outcome, outcome, (h w s).2 all]

theorem Tracks.foldlM {as : List α} {b : β} {k k' : β → α → TermM σ ε β}
    (h : ∀ b a, Tracks Q (k b a) (k' b a)) : Tracks Q (as.foldlM k b) (as.foldlM k' b) := by
  induction as generalizing b with
  | nil => exact .pure b
  | cons a as ih =>
      rw [List.foldlM_cons, List.foldlM_cons]
      exact (h b a).bind fun _ => ih

theorem Tracks.mapM {as : List α} (h : ∀ a, Tracks Q (f a) (g a)) : Tracks Q (as.mapM f) (as.mapM g) := by
  induction as with
  | nil => exact .pure []
  | cons a as ih =>
      rw [List.mapM_cons, List.mapM_cons]
      exact (h a).bind fun b => ih.bind fun bs => .pure (b :: bs)

end TermM

open TermM (Tracks)

variable {o o' : Order}

namespace Workspace

variable {ε : Type}

theorem ask_tracks (h : o.Tracks Q o') (r q : Ref) :
    Tracks Q (ask o r q : TermM Workspace ε Bool) (ask o' r q) := by
  unfold ask
  rw [h.alarm]
  exact .bind (.still fun _ _ => rfl) fun s => .bind (.still fun _ _ => rfl) fun _ => .lift (h.greater r q)

theorem askEither_tracks (h : o.Tracks Q o') (r q : Ref) :
    Tracks Q (askEither o r q : TermM Workspace ε Bool) (askEither o' r q) := by
  refine .bind (ask_tracks h r q) fun yes => ?_
  split
  · exact .pure true
  · exact ask_tracks h q r

theorem drawVar_tracks : Tracks Q drawVar drawVar := by
  refine .bind (.still fun _ _ => rfl) fun w => .bind (.still fun _ _ => rfl) fun _ => ?_
  exact .bind (.result _) fun v => .lift (Store.intern_grows (.var v)).tracks

theorem drawRenaming_tracks (σ : Subst) (vs : List Var) :
    Tracks Q (drawRenaming σ vs) (drawRenaming σ vs) := by
  induction vs generalizing σ with
  | nil => exact .pure σ
  | cons v vs ih => exact .bind drawVar_tracks fun fresh => ih (σ.bind v fresh)

theorem renameApart_tracks (e : Equation) : Tracks Q (renameApart e) (renameApart e) :=
  .bind (.lift e.vars_grows.tracks) fun vs => .bind (drawRenaming_tracks .empty vs) fun σ =>
    .lift (e.apply_grows σ).tracks

end Workspace

namespace Superposition

theorem renameApart_tracks (e : Equation) : Tracks Q (renameApart e) (renameApart e) :=
  .adapt (Workspace.renameApart_tracks e)

theorem pairAt_tracks (h : o.Tracks Q o') (gd ab : Equation) (here : Overlap) :
    Tracks Q (pairAt o gd ab here) (pairAt o' gd ab here) := by
  unfold pairAt
  refine .bind (.lift (gd.apply_grows _).tracks) fun gd' => ?_
  split
  · exact .pure none
  refine .bind (Workspace.ask_tracks h _ _) fun up => ?_
  split
  · exact .pure none
  refine .bind (.lift (ab.apply_grows _).tracks) fun ab' => ?_
  split
  · exact .pure none
  refine .bind (Workspace.ask_tracks h _ _) fun up' => ?_
  split
  · exact .pure none
  refine .bind (.lift (Store.replaceAt_grows _ _ _).tracks) fun outcome => ?_
  split
  · exact .bind (.lift (Store.apply_grows _ _).tracks) fun _ => .pure _
  · exact .throw _

theorem pairsAt_tracks (h : o.Tracks Q o') (gd ab : Equation) (found : List Equation)
    (places : List Overlap) : Tracks Q (pairsAt o gd ab found places) (pairsAt o' gd ab found places) := by
  induction places generalizing found with
  | nil => exact .pure found
  | cons here places ih =>
      rw [pairsAt, pairsAt]
      refine .bind (pairAt_tracks h gd ab here) fun outcome => ?_
      split
      · exact ih _
      · exact ih _

end Superposition

theorem criticalPairs_tracks (h : o.Tracks Q o') (gd ab : Equation) :
    Tracks Q (criticalPairs o gd ab) (criticalPairs o' gd ab) :=
  .bind (Superposition.renameApart_tracks ab) fun ab => .bind (Superposition.renameApart_tracks gd) fun gd =>
    .bind (.lift (Store.overlaps_grows _ _).tracks) fun places => Superposition.pairsAt_tracks h gd ab [] places

namespace Superposer

theorem superpose_tracks (h : o.Tracks Q o') (found : List Equation) (donors : Equation × Equation) :
    Tracks Q (superpose o found donors) (superpose o' found donors) := by
  unfold superpose
  refine .bind (.still fun _ _ => rfl) fun s => ?_
  split
  · exact .pure found
  · exact .bind (.still fun _ _ => rfl) fun _ => .bind (.within (criticalPairs_tracks h _ _)) fun _ => .pure _

theorem superposeAll_tracks (h : o.Tracks Q o') (donors : List (Equation × Equation)) :
    Tracks Q (superposeAll o donors) (superposeAll o' donors) :=
  .foldlM fun found donors => superpose_tracks h found donors

end Superposer

namespace Reducer

theorem bindClashes_tracks (targetVars : List Var) (σ : Subst) (vs : List Var) :
    Tracks Q (bindClashes targetVars σ vs) (bindClashes targetVars σ vs) := by
  induction vs generalizing σ with
  | nil => exact .pure σ
  | cons v vs ih =>
      rw [bindClashes]
      split
      · exact .bind (.within Workspace.drawVar_tracks) fun _ => ih _
      · exact ih σ

theorem instantiate_tracks (rule : Equation) (σ : Subst) (t : Ref) :
    Tracks Q (instantiate rule σ t) (instantiate rule σ t) :=
  .bind (.lift (Store.vars_grows t).tracks) fun vs => .bind (.lift (Store.vars_grows rule.rhs).tracks)
    fun ws => .bind (bindClashes_tracks vs σ ws) fun σ => .lift (Store.apply_grows σ rule.rhs).tracks

theorem useRule_tracks (t : Ref) (rule : Equation) : Tracks Q (useRule t rule) (useRule t rule) := by
  refine .bind (.lift (Store.matchPairs?_grows _).tracks) fun outcome => ?_
  split
  · exact instantiate_tracks rule _ t
  · exact .pure t

theorem useEquation_tracks (h : o.Tracks Q o') (t : Ref) (e : Equation) :
    Tracks Q (useEquation o t e) (useEquation o' t e) := by
  refine .bind (.lift (Store.matchPairs?_grows _).tracks) fun outcome => ?_
  split
  · refine .bind (instantiate_tracks e _ t) fun u => .bind (.within (Workspace.ask_tracks h t u)) fun yes => ?_
    split
    · exact .pure u
    · exact .pure t
  · exact .pure t

/-- The same reducer with another order. -/
abbrev withOrder (r : Reducer) (o : Order) : Reducer := { r with order := o }

variable {r : Reducer}

theorem reduceTop_tracks (h : r.order.Tracks Q o') (t : Ref) :
    Tracks Q (r.reduceTop t) ((r.withOrder o').reduceTop t) :=
  .bind (.foldlM useRule_tracks) fun _ => .foldlM (useEquation_tracks h)

theorem settle_tracks (h : r.order.Tracks Q o') (call : ReduceCall) (t inner : Ref) :
    Tracks Q (r.settle call t inner) ((r.withOrder o').settle call t inner) := by
  refine .bind (reduceTop_tracks h inner) fun out => .bind (.still fun _ _ => rfl) fun s => ?_
  split
  · exact .throw _
  · exact .bind (.still fun _ _ => rfl) fun _ => .pure out

theorem passWithin_tracks (h : r.order.Tracks Q o') (call : ReduceCall) (n : Nat) (t : Ref) :
    Tracks Q (r.passWithin call n t) ((r.withOrder o').passWithin call n t) := by
  induction n generalizing t with
  | zero => exact .throw _
  | succ n ih =>
      rw [passWithin, passWithin]
      refine .bind (.still fun _ _ => rfl) fun state => ?_
      split
      · exact .pure _
      · refine .bind (.still fun _ _ => rfl) fun s => ?_
        split
        · exact settle_tracks h call t t
        · exact .bind (.mapM ih) fun inner => .bind (.lift (Store.intern_grows _).tracks) fun _ =>
            settle_tracks h call t _
        · exact .throw _

theorem passUntilFixed_tracks (h : r.order.Tracks Q o') (start : Ref) (ceiling left done : Nat) (t : Ref) :
    Tracks Q (r.passUntilFixed start ceiling left done t)
      ((r.withOrder o').passUntilFixed start ceiling left done t) := by
  induction left generalizing done t with
  | zero => exact .throw _
  | succ left ih =>
      rw [passUntilFixed, passUntilFixed]
      refine .bind (.bind (.still fun _ _ => rfl) fun s => passWithin_tracks h _ _ t) fun u => ?_
      refine .bind (.still fun _ _ => rfl) fun _ => ?_
      split
      · exact .pure t
      · exact ih (done + 1) u

theorem normalize_tracks (h : r.order.Tracks Q o') (t : Ref) :
    Tracks Q (r.normalize t) ((r.withOrder o').normalize t) :=
  .bind (.still fun _ _ => rfl) fun _ => passUntilFixed_tracks h t _ _ 0 t

theorem normalizeAll_tracks (h : r.order.Tracks Q o') (ts : List Ref) :
    Tracks Q (r.normalizeAll ts) ((r.withOrder o').normalizeAll ts) := by
  induction ts with
  | nil => exact .pure []
  | cons t ts ih => exact .bind (normalize_tracks h t) fun _ => .bind ih fun _ => .pure _

end Reducer

end OrderedCompletion
