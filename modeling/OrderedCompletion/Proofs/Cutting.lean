import OrderedCompletion.Engine.Query
import OrderedCompletion.Proofs.Runs

/-! Runs whose source ends before a variable: they do what runs with the whole source do until that variable
is asked for, and stop there. -/

namespace OrderedCompletion

namespace VarSource

variable {v w n : Var} {reserved : List Var} {rest : VarSource} {l : Nat}

/-- The variables of a source before the given one. -/
def upTo (v : Var) : VarSource → VarSource
  | .counting n => .listed (List.range' n (v - n))
  | .listed vs => .listed (vs.takeWhile (· ≠ v))

theorem nextOutside_counting (h : (counting n).nextOutside reserved l = some (w, rest)) :
    n ≤ w ∧ rest = .counting (w + 1) := by
  induction l generalizing n with
  | zero => cases h
  | succ l ih =>
      rw [nextOutside, next?] at h
      by_cases more : n < lastVar
      · simp only [if_pos more] at h
        split at h
        · obtain ⟨le, same⟩ := ih h
          exact ⟨Nat.le_of_succ_le le, same⟩
        · cases h
          exact ⟨Nat.le_refl _, rfl⟩
      · simp only [if_neg more] at h
        cases h

/-- The numbers before a variable come from a list as they come from a source that counts. Once it has none of
them left, the latter has not the variable either. -/
theorem nextOutside_upTo (reserved : List Var) (bounded : v < lastVar) (le : n ≤ v) :
    (∃ w < v, (counting n).nextOutside reserved (counting n).remaining = some (w, .counting (w + 1)) ∧
      ((counting n).upTo v).nextOutside reserved ((counting n).upTo v).remaining =
        some (w, (counting (w + 1)).upTo v)) ∨
    (∀ w rest, (counting n).nextOutside reserved (counting n).remaining = some (w, rest) → ¬ rest.Offers v) ∧
      ((counting n).upTo v).nextOutside reserved ((counting n).upTo v).remaining = none := by
  simp only [upTo, remaining, List.length_range']
  obtain ⟨d, rfl⟩ := Nat.exists_eq_add_of_le le
  clear le
  induction d generalizing n with
  | zero =>
      refine .inr ⟨fun w rest h => ?_, by simp [nextOutside]⟩
      obtain ⟨le, rfl⟩ := nextOutside_counting h
      exact Nat.not_le_of_lt (Nat.lt_succ_of_le le)
  | succ d ih =>
      have more : n < lastVar := Nat.lt_of_le_of_lt (Nat.le_add_right n (d + 1)) bounded
      have left : lastVar - n = (lastVar - (n + 1)) + 1 := (Nat.sub_add_cancel (Nat.sub_pos_of_lt more)).symm
      have range : List.range' n (n + (d + 1) - n) = n :: List.range' (n + 1) (n + 1 + d - (n + 1)) := by
        rw [Nat.add_sub_cancel_left, Nat.add_sub_cancel_left, List.range'_succ]
      have length : n + (d + 1) - n = (n + 1 + d - (n + 1)) + 1 := by
        rw [Nat.add_sub_cancel_left, Nat.add_sub_cancel_left]
      have onward : n + (d + 1) = n + 1 + d := Nat.add_right_comm n d 1
      rw [left, range, length, nextOutside, nextOutside, next?, next?, if_pos more]
      dsimp only
      split
      · rw [onward] at bounded ⊢
        exact ih bounded
      · rw [← onward]
        exact .inl ⟨n, Nat.lt_add_of_pos_right (Nat.succ_pos d), rfl, rfl⟩

end VarSource

namespace Supply

variable {v : Var} {supply supply' supply'' : Supply}

/-- The same supply with a source that ends before a variable. -/
def cut (v : Var) (supply : Supply) : Supply := { supply with source := supply.source.upTo v }

/-- A source does not get back what it has given, and what is reserved stays so. -/
structure Onward (supply supply' : Supply) : Prop where
  offers : ∀ v, supply'.source.Offers v → supply.source.Offers v
  reserved : supply.reserved ⊆ supply'.reserved

theorem Onward.refl (supply : Supply) : Onward supply supply := ⟨fun _ h => h, List.Subset.refl _⟩

theorem Onward.trans (h : Onward supply supply') (h' : Onward supply' supply'') : Onward supply supply'' :=
  ⟨fun v hv => h.offers v (h'.offers v hv), List.Subset.trans h.reserved h'.reserved⟩

theorem draw_onward (supply : Supply) : supply.Onward supply.draw.2 := by
  rw [draw]
  split
  · rename_i drawn
    exact ⟨(VarSource.nextOutside_spec drawn).2.2.1, List.Subset.refl _⟩
  · exact ⟨fun _ h => (by cases h), List.Subset.refl _⟩

theorem reserve_onward (supply : Supply) (vs : List Var) : supply.Onward (supply.reserve vs) :=
  ⟨fun _ h => h, fun _ h => mem_reserve.2 (.inl h)⟩

/-- Both sources give the same variable, or the one that was cut has none and the whole one passes the place
of the cut. -/
theorem draw_cut (bounded : v < lastVar) {n : Var} (counts : supply.source = .counting n) (le : n ≤ v) :
    (∃ w < v, supply.draw = (.ok w, { supply with source := .counting (w + 1) }) ∧
      (supply.cut v).draw = (.ok w, { supply with source := .counting (w + 1) : Supply }.cut v)) ∨
    ¬ supply.draw.2.source.Offers v ∧
      (supply.cut v).draw = (.error .exhausted, { supply with source := .listed [] }) := by
  have source : (supply.cut v).source = (VarSource.counting n).upTo v := by rw [cut, counts]
  have reserved : (supply.cut v).reserved = supply.reserved := rfl
  rw [draw, draw, counts, source, reserved]
  rcases VarSource.nextOutside_upTo supply.reserved bounded le with
    ⟨w, less, whole, part⟩ | ⟨past, none⟩
  · rw [whole, part]
    exact .inl ⟨w, less, rfl, rfl⟩
  · rw [none]
    refine .inr ⟨?_, rfl⟩
    split
    · rename_i w rest drawn
      exact past w rest drawn
    · exact List.not_mem_nil

end Supply

/-- States with a supply of fresh variables. -/
class Supplied (σ : Type) where
  supply : σ → Supply
  put : Supply → σ → σ

instance : Supplied Workspace := ⟨Workspace.supply, fun supply w => { w with supply }⟩

instance : Supplied ReduceState :=
  ⟨fun st => st.workspace.supply, fun supply st => { st with workspace := { st.workspace with supply } }⟩

instance : Supplied Superposer :=
  ⟨fun sp => sp.workspace.supply, fun supply sp => { sp with workspace := { sp.workspace with supply } }⟩

instance : Supplied Engine :=
  ⟨fun e => e.workspace.supply, fun supply e => { e with workspace := { e.workspace with supply } }⟩

namespace Supplied

variable {σ : Type} [Supplied σ]

/-- The same state with a source that ends before a variable. -/
def cut (v : Var) (w : σ) : σ := put ((supply w).cut v) w

/-- The source counts and has not passed the variable. -/
def Before (v : Var) (w : σ) : Prop := ∃ n ≤ v, (supply w).source = .counting n

/-- The source no longer has the variable. -/
def Past (v : Var) (w : σ) : Prop := ¬ (supply w).source.Offers v

end Supplied

open Supplied

namespace TermM

variable {σ τ ε δ α β : Type} [Supplied σ] [Supplied τ] {v : Var} {D : ε → Prop} {D' : δ → Prop}

/-- The action failed for want of a variable. -/
def Dry (D : ε → Prop) (out : (Except ε α × σ) × Store) : Prop :=
  (∃ err, out.1.1 = .error err ∧ D err) ∧ (supply out.1.2).source = .listed []

/-- With a source that ends before the variable the action does what it does with the whole source, or it
fails for want of a variable, where the whole source passes the one in question. -/
structure Cuts (v : Var) (D : ε → Prop) (x : TermM σ ε α) : Prop where
  onward : ∀ w s, (supply w).Onward (supply (x w s).1.2)
  cut : ∀ w s, Before v w →
    Before v (x w s).1.2 ∧ x (cut v w) s = (((x w s).1.1, Supplied.cut v (x w s).1.2), (x w s).2) ∨
    Past v (x w s).1.2 ∧ Dry D (x (Supplied.cut v w) s)

variable {x : TermM σ ε α} {f : α → TermM σ ε β}

omit [Supplied σ] in
theorem get_bind (g : σ → TermM σ ε β) (w : σ) (s : Store) : (get >>= g) w s = g w w s := rfl

omit [Supplied σ] in
theorem set_bind (w' : σ) (g : PUnit → TermM σ ε β) (w : σ) (s : Store) :
    ((set w' : TermM σ ε PUnit) >>= g) w s = g ⟨⟩ w' s := rfl

omit [Supplied σ] in
theorem store_bind (g : Store → TermM σ ε β) (w : σ) (s : Store) :
    ((getThe Store : TermM σ ε Store) >>= g) w s = g s w s := rfl

omit [Supplied σ] in
theorem lift_bind (y : StoreM α) (w : σ) (s : Store) :
    ((liftM y : TermM σ ε α) >>= f) w s = f (y s).1 w (y s).2 := rfl

/-- An action that does not look at the state. -/
theorem Cuts.still (out : Store → Except ε α × Store)
    (h : ∀ w s, x w s = (((out s).1, w), (out s).2)) :
    Cuts v D x where
  onward := fun w s => h w s ▸ .refl _
  cut := fun w s before => .inl (by rw [h, h]; exact ⟨before, rfl⟩)

theorem Cuts.pure (a : α) : Cuts v D (Pure.pure a : TermM σ ε α) :=
  .still (fun s => (.ok a, s)) fun _ _ => rfl

theorem Cuts.throw (err : ε) : Cuts v D (throwThe ε err : TermM σ ε α) :=
  .still (fun s => (.error err, s)) fun _ _ => rfl

theorem Cuts.lift (y : StoreM α) : Cuts v D (liftM y : TermM σ ε α) :=
  .still (fun s => (.ok (y s).1, (y s).2)) fun _ _ => rfl

theorem Cuts.store : Cuts v D (getThe Store : TermM σ ε Store) :=
  .still (fun s => (.ok s, s)) fun _ _ => rfl

theorem Cuts.past (h : Cuts v D x) {w : σ} (s : Store) (gone : Past v w) : Past v (x w s).1.2 :=
  fun offered => gone ((h.onward w s).offers v offered)

theorem Cuts.bind (hx : Cuts v D x) (hf : ∀ a, Cuts v D (f a)) : Cuts v D (x >>= f) where
  onward := by
    intro w s
    have first := hx.onward w s
    rw [bind_apply]
    cases outcome : (x w s).1.1 with
    | ok a => exact first.trans ((hf a).onward _ _)
    | error err => exact first
  cut := by
    intro w s before
    rw [bind_apply, bind_apply]
    rcases hx.cut w s before with ⟨before₁, same⟩ | ⟨past₁, ⟨err, failed, dry⟩, none⟩
    · rw [same]
      cases outcome : (x w s).1.1 with
      | ok a => exact (hf a).cut _ _ before₁
      | error err => exact .inl ⟨before₁, rfl⟩
    · refine .inr ⟨?_, ?_⟩
      · cases outcome : (x w s).1.1 with
        | ok a => exact (hf a).past _ past₁
        | error err => exact past₁
      · rw [failed]
        exact ⟨⟨err, rfl, dry⟩, none⟩

/-- What is read of the state is the same with the other source. -/
theorem Cuts.get {g : σ → TermM σ ε β} (hg : ∀ w, Cuts v D (g w)) (same : ∀ w, g (Supplied.cut v w) = g w) :
    Cuts v D (get >>= g) where
  onward := fun w s => (hg w).onward w s
  cut := by
    intro w s before
    change _ ∧ g (Supplied.cut v w) (Supplied.cut v w) s = _ ∨
      _ ∧ Dry D (g (Supplied.cut v w) (Supplied.cut v w) s)
    rw [same]
    exact (hg w).cut w s before

/-- A change of the state that leaves the source alone. -/
theorem Cuts.change {m : σ → σ} (same : ∀ w, m (Supplied.cut v w) = Supplied.cut v (m w))
    (source : ∀ w, (supply (m w)).source = (supply w).source)
    (reserved : ∀ w, (supply w).reserved ⊆ (supply (m w)).reserved) :
    Cuts v D (modify m : TermM σ ε PUnit) where
  onward := fun w _ => ⟨fun _ offered => source w ▸ offered, reserved w⟩
  cut := by
    rintro w s ⟨n, le, counts⟩
    refine .inl ⟨⟨n, le, (source w).trans counts⟩, ?_⟩
    change ((Except.ok PUnit.unit, m (Supplied.cut v w)), s) = _
    rw [same]
    rfl

/-- A change of the state that leaves the supply alone. -/
theorem Cuts.modify {m : σ → σ} (same : ∀ w, m (Supplied.cut v w) = Supplied.cut v (m w))
    (keeps : ∀ w, supply (m w) = supply w) : Cuts v D (modify m : TermM σ ε PUnit) :=
  .change same (fun w => by rw [keeps]) fun w => by rw [keeps]; exact List.Subset.refl _

/-- An action on a state of its own, which has the supply, and what is made of its outcome. -/
theorem Cuts.through {x : TermM τ δ β} (y : τ → TermM σ ε α) (part : τ → σ) (put : σ → τ → τ)
    (finish : Except ε α → TermM τ δ β) (apply : ∀ t s, x t s =
      finish (y t (part t) s).1.1 (put (y t (part t) s).1.2 t) (y t (part t) s).2)
    (hy : ∀ t, Cuts v D (y t)) (same : ∀ t, y (Supplied.cut v t) = y t)
    (supplyPart : ∀ t, supply (part t) = supply t)
    (cutPart : ∀ t, part (Supplied.cut v t) = Supplied.cut v (part t))
    (supplyPut : ∀ w t, supply (put w t) = supply w)
    (cutPut : ∀ w t, put (Supplied.cut v w) (Supplied.cut v t) = Supplied.cut v (put w t))
    (hf : ∀ out, Cuts v D' (finish out))
    (fails : ∀ err, D err → ∀ t s, ∃ err', finish (.error err) t s = ((.error err', t), s) ∧ D' err') :
    Cuts v D' x where
  onward := by
    intro t s
    have inner := (hy t).onward (part t) s
    rw [supplyPart] at inner
    rw [apply]
    refine inner.trans ?_
    have last := (hf (y t (part t) s).1.1).onward (put (y t (part t) s).1.2 t) (y t (part t) s).2
    rwa [supplyPut] at last
  cut := by
    rintro t s ⟨n, le, counts⟩
    have before : Before v (part t) := ⟨n, le, by rw [supplyPart, counts]⟩
    rw [apply, apply, same, cutPart]
    rcases (hy t).cut _ s before with ⟨⟨m, le', counts'⟩, again⟩ | ⟨past, ⟨err, failed, dry⟩, none⟩
    · rw [again, cutPut]
      exact (hf _).cut _ _ ⟨m, le', by rw [supplyPut, counts']⟩
    · refine .inr ⟨(hf _).past _ (by rwa [Past, supplyPut]), ?_⟩
      obtain ⟨err', fails', dry'⟩ := fails err dry
        (put (y t (Supplied.cut v (part t)) s).1.2 (Supplied.cut v t)) (y t (Supplied.cut v (part t)) s).2
      rw [failed, fails']
      exact ⟨⟨err', rfl, dry'⟩, by rw [supplyPut, none]⟩

/-- The same if the outcome is left as it is but for the name of the failure. -/
theorem Cuts.within {part : τ → σ} {put : σ → τ → τ} {fault : ε → δ} (hx : Cuts v D x)
    (supplyPart : ∀ t, supply (part t) = supply t)
    (cutPart : ∀ t, part (Supplied.cut v t) = Supplied.cut v (part t))
    (supplyPut : ∀ w t, supply (put w t) = supply w)
    (cutPut : ∀ w t, put (Supplied.cut v w) (Supplied.cut v t) = Supplied.cut v (put w t))
    (faults : ∀ err, D err → D' (fault err)) : Cuts v D' (x.within part put fault) := by
  refine .through (fun _ => x) part put (fun out t s => ((out.mapError fault, t), s)) (fun t s => ?_)
    (fun _ => hx) (fun _ => rfl) supplyPart cutPart supplyPut cutPut
    (fun out => .still (fun s => (out.mapError fault, s)) fun _ _ => rfl)
    fun err dry _ _ => ⟨fault err, rfl, faults err dry⟩
  unfold TermM.within
  rcases x (part t) s with ⟨⟨_ | _, _⟩, _⟩
  · rfl
  · rfl

theorem Cuts.adapt {fault : ε → δ} {D' : δ → Prop} (hx : Cuts v D x) (faults : ∀ err, D err → D' (fault err)) :
    Cuts v D' (ExceptT.adapt fault x : TermM σ δ α) :=
  .through (fun _ => x) id (fun w _ => w) (fun out t s => ((out.mapError fault, t), s)) (fun _ _ => rfl)
    (fun _ => hx) (fun _ => rfl) (fun _ => rfl) (fun _ => rfl) (fun _ _ => rfl) (fun _ _ => rfl)
    (fun out => .still (fun s => (out.mapError fault, s)) fun _ _ => rfl)
    fun err dry _ _ => ⟨fault err, rfl, faults err dry⟩

theorem Cuts.foldlM {as : List α} {b : β} {k : β → α → TermM σ ε β} (h : ∀ b a, Cuts v D (k b a)) :
    Cuts v D (as.foldlM k b) := by
  induction as generalizing b with
  | nil => exact .pure b
  | cons a as ih =>
      rw [List.foldlM_cons]
      exact (h b a).bind fun _ => ih

theorem Cuts.mapM {as : List α} (h : ∀ a, Cuts v D (f a)) : Cuts v D (as.mapM f) := by
  induction as with
  | nil => exact .pure []
  | cons a as ih =>
      rw [List.mapM_cons]
      exact (h a).bind fun b => ih.bind fun bs => .pure (b :: bs)

end TermM

open TermM (Cuts)

variable {v : Var} {o : Order}

namespace Workspace

variable {ε : Type} {D : ε → Prop}

theorem ask_cuts (r q : Ref) : Cuts v D (ask o r q : TermM Workspace ε Bool) :=
  .bind .store fun _ => .bind (.modify (fun _ => rfl) fun _ => rfl) fun _ => .lift _

theorem askEither_cuts (r q : Ref) : Cuts v D (askEither o r q : TermM Workspace ε Bool) := by
  refine .bind (ask_cuts r q) fun yes => ?_
  split
  · exact .pure true
  · exact ask_cuts q r

theorem drawVar_apply (w : Workspace) (s : Store) : drawVar w s = match w.supply.draw with
    | (.ok x, supply) => ((.ok (Store.var x s).1, { w with supply }), (Store.var x s).2)
    | (.error err, supply) => ((.error err, { w with supply }), s) := by
  have read : drawVar w s = (do
      modify fun w' => { w' with supply := w.supply.draw.2 }
      let x ← (liftM w.supply.draw.1 : TermM Workspace Exhausted Var)
      Store.var x : TermM Workspace Exhausted Ref) w s := rfl
  rw [read]
  rcases w.supply.draw with ⟨err | x, supply⟩
  · rfl
  · rfl

/-- The draw that the cut source has nothing for is one that takes the whole source past the variable. -/
theorem drawVar_cuts (bounded : v < lastVar) : Cuts v (fun _ => True) drawVar where
  onward := by
    intro w s
    have onward := w.supply.draw_onward
    rw [drawVar_apply]
    rcases drawn : w.supply.draw with ⟨err | x, supply⟩
    · rwa [drawn] at onward
    · rwa [drawn] at onward
  cut := by
    rintro w s ⟨n, le, counts⟩
    have counts : w.supply.source = .counting n := counts
    rw [drawVar_apply, drawVar_apply]
    have inside : (cut v w).supply = w.supply.cut v := rfl
    rcases Supply.draw_cut bounded counts le with ⟨x, less, whole, part⟩ | ⟨past, part⟩
    · rw [inside, whole, part]
      exact .inl ⟨⟨x + 1, less, rfl⟩, rfl⟩
    · rw [inside, part]
      refine .inr ⟨?_, ⟨.exhausted, rfl, trivial⟩, rfl⟩
      rcases drawn : w.supply.draw with ⟨err | x, supply⟩
      · rwa [drawn] at past
      · rwa [drawn] at past

theorem drawRenaming_cuts (bounded : v < lastVar) (σ : Subst) (vs : List Var) :
    Cuts v (fun _ => True) (drawRenaming σ vs) := by
  induction vs generalizing σ with
  | nil => exact .pure σ
  | cons x vs ih => exact .bind (drawVar_cuts bounded) fun fresh => ih (σ.bind x fresh)

theorem renameApart_cuts (bounded : v < lastVar) (e : Equation) : Cuts v (fun _ => True) (renameApart e) :=
  .bind (.lift _) fun vs => .bind (drawRenaming_cuts bounded .empty vs) fun _ => .lift _

end Workspace

namespace Superposition

/-- Superposition has run out of variables. -/
abbrev Dry (err : OverlapError) : Prop := err = .exhausted

theorem pairAt_cuts (gd ab : Equation) (here : Overlap) : Cuts v Dry (pairAt o gd ab here) := by
  refine .bind (.lift _) fun gd' => ?_
  split
  · exact .pure none
  refine .bind (Workspace.ask_cuts _ _) fun up => ?_
  split
  · exact .pure none
  refine .bind (.lift _) fun ab' => ?_
  split
  · exact .pure none
  refine .bind (Workspace.ask_cuts _ _) fun up' => ?_
  split
  · exact .pure none
  refine .bind (.lift _) fun outcome => ?_
  split
  · exact .bind (.lift _) fun _ => .pure _
  · exact .throw _

theorem pairsAt_cuts (gd ab : Equation) (found : List Equation) (places : List Overlap) :
    Cuts v Dry (pairsAt o gd ab found places) := by
  induction places generalizing found with
  | nil => exact .pure found
  | cons here places ih =>
      refine .bind (pairAt_cuts gd ab here) fun outcome => ?_
      split
      · exact ih _
      · exact ih _

theorem criticalPairs_cuts (bounded : v < lastVar) (gd ab : Equation) : Cuts v Dry (criticalPairs o gd ab) := by
  have renamed : ∀ e, Cuts v Dry (renameApart e) := fun e =>
    .adapt (Workspace.renameApart_cuts bounded e) fun _ _ => rfl
  exact .bind (renamed ab) fun ab => .bind (renamed gd) fun gd => .bind (.lift _) fun places =>
    pairsAt_cuts gd ab [] places

end Superposition

namespace Superposer

open Superposition (Dry)

theorem onWorkspace_cuts {α : Type} {x : TermM Workspace OverlapError α} (h : Cuts v Dry x) :
    Cuts v Dry (onWorkspace x) :=
  .within h (fun _ => rfl) (fun _ => rfl) (fun _ _ => rfl) (fun _ _ => rfl) fun _ dry => dry

variable (bounded : v < lastVar)
include bounded

theorem superpose_cuts (found : List Equation) (donors : Equation × Equation) :
    Cuts v Dry (superpose o found donors) := by
  refine .get (fun sp => ?_) fun _ => rfl
  split
  · exact .pure found
  · exact .bind (.modify (fun _ => rfl) fun _ => rfl) fun _ =>
      .bind (onWorkspace_cuts (Superposition.criticalPairs_cuts bounded _ _)) fun _ => .pure _

theorem superposeAll_cuts (donors : List (Equation × Equation)) :
    Cuts v Dry (superposeAll o donors) :=
  .foldlM (superpose_cuts bounded)

end Superposer

namespace Reducer

/-- Normalization has run out of variables. -/
abbrev Dry (err : ReduceError) : Prop := err = .exhausted

theorem onWorkspace_cuts {α : Type} {x : TermM Workspace Exhausted α} (h : Cuts v (fun _ => True) x) :
    Cuts v Dry (onWorkspace x) :=
  .within h (fun _ => rfl) (fun _ => rfl) (fun _ _ => rfl) (fun _ _ => rfl) fun _ _ => rfl

variable {r : Reducer} (bounded : v < lastVar)
include bounded

theorem bindClashes_cuts (targetVars : List Var) (σ : Subst) (vs : List Var) :
    Cuts v Dry (bindClashes targetVars σ vs) := by
  induction vs generalizing σ with
  | nil => exact .pure σ
  | cons x vs ih =>
      rw [bindClashes]
      split
      · exact .bind (onWorkspace_cuts (Workspace.drawVar_cuts bounded)) fun _ => ih _
      · exact ih σ

theorem instantiate_cuts (rule : Equation) (σ : Subst) (t : Ref) :
    Cuts v Dry (instantiate rule σ t) :=
  .bind (.lift _) fun vs => .bind (.lift _) fun ws => .bind (bindClashes_cuts bounded vs σ ws) fun _ => .lift _

theorem useRule_cuts (t : Ref) (rule : Equation) : Cuts v Dry (useRule t rule) := by
  refine .bind (.lift _) fun outcome => ?_
  split
  · exact instantiate_cuts bounded rule _ t
  · exact .pure t

theorem useEquation_cuts (t : Ref) (e : Equation) : Cuts v Dry (useEquation o t e) := by
  refine .bind (.lift _) fun outcome => ?_
  split
  · refine .bind (instantiate_cuts bounded e _ t) fun u =>
      .bind (onWorkspace_cuts (Workspace.ask_cuts t u)) fun yes => ?_
    split
    · exact .pure u
    · exact .pure t
  · exact .pure t

theorem reduceTop_cuts (t : Ref) : Cuts v Dry (r.reduceTop t) :=
  .bind (.foldlM (useRule_cuts bounded)) fun _ => .foldlM (useEquation_cuts bounded)

theorem settle_cuts (call : ReduceCall) (t inner : Ref) :
    Cuts v Dry (r.settle call t inner) := by
  refine .bind (reduceTop_cuts bounded inner) fun out => .bind .store fun s => ?_
  split
  · exact .throw _
  · exact .bind (.modify (fun _ => rfl) fun _ => rfl) fun _ => .pure out

theorem passWithin_cuts (call : ReduceCall) (n : Nat) (t : Ref) :
    Cuts v Dry (r.passWithin call n t) := by
  induction n generalizing t with
  | zero => exact .throw _
  | succ n ih =>
      rw [passWithin]
      refine .get (fun st => ?_) fun _ => rfl
      split
      · exact .pure _
      · refine .bind .store fun s => ?_
        split
        · exact settle_cuts bounded call t t
        · exact .bind (.mapM ih) fun inner => .bind (.lift _) fun _ => settle_cuts bounded call t _
        · exact .throw _

theorem passUntilFixed_cuts (start : Ref) (ceiling left done : Nat) (t : Ref) :
    Cuts v Dry (r.passUntilFixed start ceiling left done t) := by
  induction left generalizing done t with
  | zero => exact .throw _
  | succ left ih =>
      rw [passUntilFixed]
      refine .bind (.bind .store fun s => passWithin_cuts bounded _ _ t) fun u => ?_
      refine .bind (.modify (fun _ => rfl) fun _ => rfl) fun _ => ?_
      split
      · exact .pure t
      · exact ih (done + 1) u

theorem normalize_cuts (t : Ref) : Cuts v Dry (r.normalize t) :=
  .bind .store fun _ => passUntilFixed_cuts bounded t _ _ 0 t

theorem normalizeAll_cuts (ts : List Ref) : Cuts v Dry (r.normalizeAll ts) := by
  induction ts with
  | nil => exact .pure []
  | cons t ts ih => exact .bind (normalize_cuts bounded t) fun _ => .bind ih fun _ => .pure _

end Reducer
end OrderedCompletion
