import OrderedCompletion.Proofs.Interning

/-! Freezing and unfreezing undo each other, for trees and for stored terms, as long as nothing was frozen that
the store did not know yet. -/

namespace OrderedCompletion

/-- Symbols with any number of arguments, and no rigid variables. -/
def Signature.plain : Signature
  | .symbol _, _ => True
  | .frozen _, _ => False

/-- Symbols with any number of arguments, and rigid variables without arguments. -/
def Signature.rigid : Signature
  | .symbol _, _ => True
  | .frozen _, n => n = 0

namespace Term

variable {f : Head} {c : Symbol} {args : List Term} {s t u : Term} {v w : Var}

@[simp] theorem freeze_var : (var v).freeze = .app (.frozen v) [] := rfl

@[simp] theorem freeze_app : (app f args).freeze = .app f (args.map freeze) := by
  rw [freeze, freezeList_eq_map]

/-- To freeze a term is to put its rigid constant in for every variable. -/
theorem freeze_eq_subst : t.freeze = t.subst fun v => .app (.frozen v) [] := by
  induction t using Term.induct with
  | var v => rfl
  | missing r => rfl
  | app f args ih =>
      rw [freeze_app, subst_app, app.injEq]
      exact ⟨rfl, List.map_congr_left ih⟩

theorem freeze_isGround : t.freeze.IsGround := by
  rw [IsGround, List.eq_nil_iff_forall_not_mem]
  intro v hv
  rw [freeze_eq_subst, mem_vars_subst] at hv
  obtain ⟨w, -, inside⟩ := hv
  obtain ⟨a, ha, -⟩ := mem_vars_app.1 inside
  exact absurd ha List.not_mem_nil

/-- Arguments that are all unfrozen to terms are unfrozen together. -/
theorem unfreezeList_eq_ok {us : List Term} (h : List.Forall₂ (fun t u => t.unfreeze = .ok u) args us) :
    unfreezeList args = .ok us := by
  induction h with
  | nil => rfl
  | cons first _ ih =>
      rw [unfreezeList, first, ih]
      rfl

theorem unfreeze_app {us : List Term} (h : unfreezeList args = .ok us) :
    (app (.symbol c) args).unfreeze = .ok (.app (.symbol c) us) := by
  rw [unfreeze, h]
  rfl

theorem unfreeze_freeze (h : t.Over .plain) : t.freeze.unfreeze = .ok t := by
  induction h with
  | var v => rfl
  | @app f args known _ ih =>
      cases f with
      | frozen v => exact known.elim
      | symbol c =>
          rw [freeze_app]
          apply unfreeze_app
          apply unfreezeList_eq_ok
          rw [List.forall₂_map_left_iff]
          exact List.forall₂_same.2 ih

/-- Different terms without rigid variables stay different. -/
theorem freeze_inj (hs : s.Over .plain) (ht : t.Over .plain) : s.freeze = t.freeze ↔ s = t := by
  constructor
  · intro alike
    have same := unfreeze_freeze hs
    rw [alike, unfreeze_freeze ht] at same
    exact (Except.ok.inj same).symm
  · exact congrArg freeze

/-- Ground terms whose rigid variables have no arguments are frozen terms. -/
theorem exists_freeze_eq (h : u.Over .rigid) (ground : u.IsGround) : ∃ t : Term, t.Over .plain ∧ t.freeze = u := by
  induction h with
  | var v => simp [IsGround, vars] at ground
  | @app f args known _ ih =>
      cases f with
      | frozen v =>
          have none : args = [] := List.length_eq_zero_iff.1 known
          subst none
          exact ⟨.var v, .var v, rfl⟩
      | symbol c =>
          have each : ∀ a ∈ args, ∃ t : Term, t.Over .plain ∧ t.freeze = a :=
            fun a ha => ih a ha (ground.arg ha)
          choose! back plain same using each
          refine ⟨.app (.symbol c) (args.map back), .app trivial ?_, ?_⟩
          · intro t ht
            obtain ⟨a, ha, rfl⟩ := List.mem_map.1 ht
            exact plain a ha
          · rw [freeze_app, List.map_map, app.injEq]
            exact ⟨rfl, (List.map_congr_left same).trans (List.map_id args)⟩

/-- A variable that is not below a rigid variable. -/
def Exposes (t : Term) (v : Var) : Prop :=
  ∃ p, t.subtermAt p = some (.var v) ∧ ∀ q w us, q <+: p → t.subtermAt q ≠ some (.app (.frozen w) us)

theorem exposes_var : (var w).Exposes v ↔ w = v := by
  constructor
  · rintro ⟨p, at_, -⟩
    cases p with
    | nil => simpa using at_
    | cons i p => simp [subtermAt] at at_
  · rintro rfl
    refine ⟨[], subtermAt_nil, fun q u us pre => ?_⟩
    simp [List.prefix_nil.1 pre]

theorem not_frozen_exposes : ¬ (app (.frozen w) args).Exposes v := by
  rintro ⟨p, -, apart⟩
  exact apart [] w args List.nil_prefix subtermAt_nil

theorem app_exposes : (app (.symbol c) args).Exposes v ↔ ∃ a ∈ args, a.Exposes v := by
  constructor
  · rintro ⟨p, at_, apart⟩
    cases p with
    | nil => simp at at_
    | cons i p =>
        obtain ⟨f, args', a, same, ha, inside⟩ := subtermAt_cons_eq_some at_
        obtain ⟨rfl, rfl⟩ := app.inj same
        refine ⟨a, List.mem_of_getElem? ha, p, inside, ?_⟩
        intro q u us pre
        rw [← subtermAt_cons (f := .symbol c) ha]
        exact apart (i :: q) u us (List.cons_prefix_cons.2 ⟨rfl, pre⟩)
  · rintro ⟨a, ha, p, at_, apart⟩
    obtain ⟨i, ha⟩ := List.mem_iff_getElem?.1 ha
    refine ⟨i :: p, (subtermAt_cons ha).trans at_, ?_⟩
    intro q u us pre
    cases q with
    | nil => simp
    | cons j q =>
        obtain ⟨rfl, inner⟩ := List.cons_prefix_cons.1 pre
        rw [subtermAt_cons ha]
        exact apart q u us inner

/-- Unfreezing fails at a variable that it meets, and only there. -/
def Settles (t : Term) : Except TermError Term → Prop
  | .ok _ => ∀ v, ¬ t.Exposes v
  | .error e => ∃ v, e = .notFrozen v ∧ t.Exposes v

/-- So it does for one argument after another. -/
def SettlesAll (ts : List Term) : Except TermError (List Term) → Prop
  | .ok _ => ∀ t ∈ ts, ∀ v, ¬ t.Exposes v
  | .error e => ∃ v, e = .notFrozen v ∧ ∃ t ∈ ts, t.Exposes v

theorem unfreezeList_settles (h : ∀ a ∈ args, a.Settles a.unfreeze) : SettlesAll args (unfreezeList args) := by
  induction args with
  | nil => exact fun a ha => absurd ha List.not_mem_nil
  | cons a args ih =>
      have first := h a List.mem_cons_self
      have rest := ih fun b hb => h b (List.mem_cons_of_mem a hb)
      rw [unfreezeList]
      cases outcome : a.unfreeze with
      | error e =>
          rw [outcome] at first
          obtain ⟨v, same, exposed⟩ := first
          exact ⟨v, same, a, List.mem_cons_self, exposed⟩
      | ok t =>
          rw [outcome] at first
          cases others : unfreezeList args with
          | error e =>
              rw [others] at rest
              obtain ⟨v, same, b, hb, exposed⟩ := rest
              exact ⟨v, same, b, List.mem_cons_of_mem a hb, exposed⟩
          | ok us =>
              rw [others] at rest
              intro b hb
              cases hb with
              | head => exact first
              | tail _ hb => exact rest b hb

theorem SettlesAll.app {out : Except TermError (List Term)} (h : SettlesAll args out) :
    (app (.symbol c) args).Settles (out.map (app (.symbol c))) := by
  cases out with
  | ok us =>
      intro v
      rw [app_exposes]
      rintro ⟨a, ha, exposed⟩
      exact h a ha v exposed
  | error e =>
      obtain ⟨v, same, exposed⟩ := h
      exact ⟨v, same, app_exposes.2 exposed⟩

theorem unfreeze_settles (h : t.Over .full) : t.Settles t.unfreeze := by
  induction h with
  | var v => exact ⟨v, rfl, exposes_var.2 rfl⟩
  | @app f args _ _ ih =>
      cases f with
      | frozen w => exact fun v => not_frozen_exposes
      | symbol c => exact (unfreezeList_settles ih).app

theorem unfreeze_eq_notFrozen_iff (h : t.Over .full) :
    (∃ v, t.unfreeze = .error (.notFrozen v)) ↔ ∃ v, t.Exposes v := by
  have settles := unfreeze_settles h
  cases outcome : t.unfreeze with
  | ok u =>
      rw [outcome] at settles
      simp only [reduceCtorEq, exists_false, false_iff, not_exists]
      exact settles
  | error e =>
      rw [outcome] at settles
      obtain ⟨v, rfl, exposed⟩ := settles
      exact ⟨fun _ => ⟨v, exposed⟩, fun _ => ⟨v, rfl⟩⟩

end Term

namespace Store

variable {s s' : Store} {r q : Ref} {t : Term}

theorem run_bind_pure {α β : Type} (x : StoreM α) (f : α → β) :
    (do return f (← x)) s = (f (x s).1, (x s).2) := rfl

/-- What the store does not know is refused, and nothing is noted. -/
theorem unfreezeWithin_unknown (h : s.Faithful) (unknown : s.size ≤ r) (n : Nat) :
    (unfreezeWithin n r).run s = (.error (.unknownTerm r), s) := by
  have silent : s.thawedOf[r]? = none := by
    cases noted : s.thawedOf[r]? with
    | none => rfl
    | some q => exact absurd (h.thawed noted).1 (Nat.not_lt_of_le unknown)
  cases n with
  | zero => rfl
  | succ n =>
      rw [unfreezeWithin, run_getThe_bind, silent]
      dsimp only
      rw [run_getThe_bind, node?_eq_none.2 unknown]
      rfl

theorem unfreeze_unknown (h : s.Faithful) (unknown : s.size ≤ r) :
    (unfreeze r).run s = (.error (.unknownTerm r), s) := by
  rw [unfreeze, run_getThe_bind]
  exact unfreezeWithin_unknown h unknown _

/-- One more operation on terms that the store knows; whether they can be unfrozen is also asked of others. -/
def Advances (s s' : Store) : Prop :=
  ∃ op : Op, ((∀ r ∈ op.refs, r < s.size) ∨ ∃ r, op = .unfreeze r) ∧ s' = (op.run s).2

def Evolves : Store → Store → Prop := Relation.ReflTransGen Advances

theorem Faithful.advances (h : s.Faithful) (step : Advances s s') : s'.Faithful ∧ s ≤ s' := by
  have onKnown : ∀ op : Op, (∀ r ∈ op.refs, r < s.size) → (op.run s).2.Faithful ∧ s ≤ (op.run s).2 := by
    intro op known
    obtain ⟨-, le, faithful, -⟩ := h.serves known
    exact ⟨faithful, le⟩
  obtain ⟨op, known | ⟨r, rfl⟩, rfl⟩ := step
  · exact onKnown op known
  by_cases known : r < s.size
  · apply onKnown
    intro q hq
    rw [List.mem_singleton.1 hq]
    exact known
  · rw [Op.run, run_bind_pure, unfreeze_unknown h (Nat.le_of_not_lt known)]
    exact ⟨h, le_rfl⟩

theorem Faithful.evolves (h : s.Faithful) (run : Evolves s s') : s'.Faithful ∧ s ≤ s' := by
  induction run with
  | refl => exact ⟨h, le_rfl⟩
  | tail _ step ih =>
      obtain ⟨faithful, le⟩ := ih
      obtain ⟨faithful', le'⟩ := faithful.advances step
      exact ⟨faithful', le.trans le'⟩

/-- Of a term that is unfrozen to a stored one, the answer is the reference of that one. -/
theorem Faithful.unfreeze_eq {u : Term} (h : s.Faithful) (hq : s.Denotes q t) (thawed : t.unfreeze = .ok u)
    (hr : s.Denotes r u) : ((unfreeze q).run s).1 = .ok r := by
  obtain ⟨wf, le, -, thaws⟩ := unfreeze_spec h hq
  generalize ((unfreeze q).run s).1 = out at thaws
  cases out with
  | error e =>
      have refused : t.unfreeze = .error e := thaws
      rw [thawed] at refused
      cases refused
  | ok p =>
      obtain ⟨u', same, hp⟩ := thaws
      rw [thawed] at same
      cases same
      rw [hp.inj (hr.mono h.toWellFormed wf le) wf]

/-- Of a term whose frozen tree is stored, the answer is the reference of that one. -/
theorem Faithful.freeze_eq (h : s.Faithful) (hq : s.Denotes q t) (hr : s.Denotes r t.freeze) :
    (freeze q s).1 = r := by
  obtain ⟨wf, le, -, hp⟩ := freeze_spec h hq
  exact hp.inj (hr.mono h.toWellFormed wf le) wf

section
variable (before : Evolves .empty s) (hr : r < s.size)
include before hr

/-- A term without rigid variables comes back from freezing, whatever was asked in between. -/
theorem unfreeze_of_freeze (plain : (s.term r).Over .plain) (later : Evolves (freeze r s).2 s') :
    ((unfreeze (freeze r s).1).run s').1 = .ok r := by
  have faithful := (empty_faithful.evolves before).1
  have hd := denotes_term hr
  obtain ⟨wf₁, le₁, faithful₁, hq⟩ := freeze_spec faithful hd
  obtain ⟨faithful', le⟩ := faithful₁.evolves later
  have wf' := faithful'.toWellFormed
  exact faithful'.unfreeze_eq (hq.mono wf₁ wf' le) (Term.unfreeze_freeze plain)
    (hd.mono faithful.toWellFormed wf' (le₁.trans le))

/-- A ground term whose rigid variables have no arguments comes back from unfreezing. -/
theorem freeze_of_unfreeze (rigid : (s.term r).Over .rigid) (ground : (s.term r).IsGround) :
    ∃ q, ((unfreeze r).run s).1 = .ok q ∧ (((unfreeze r).run s).2.term q).Over .plain ∧
      ∀ s', Evolves ((unfreeze r).run s).2 s' → (freeze q s').1 = r := by
  have faithful := (empty_faithful.evolves before).1
  have hd := denotes_term hr
  obtain ⟨t, plain, frozen⟩ := Term.exists_freeze_eq rigid ground
  have thawed := Term.unfreeze_freeze plain
  obtain ⟨wf₁, le₁, faithful₁, thaws⟩ := unfreeze_spec faithful hd
  rw [← frozen] at thaws
  generalize ((unfreeze r).run s).1 = out at thaws
  cases out with
  | error e =>
      have refused : t.freeze.unfreeze = .error e := thaws
      rw [thawed] at refused
      cases refused
  | ok q =>
      obtain ⟨u, same, hq⟩ := thaws
      rw [thawed] at same
      cases same
      refine ⟨q, rfl, hq.2 ▸ plain, ?_⟩
      intro s' later
      obtain ⟨faithful', le⟩ := faithful₁.evolves later
      have wf' := faithful'.toWellFormed
      apply faithful'.freeze_eq (hq.mono wf₁ wf' le)
      rw [frozen]
      exact hd.mono faithful.toWellFormed wf' (le₁.trans le)

theorem unfreeze_fails_iff :
    (∃ v, ((unfreeze r).run s).1 = .error (.notFrozen v)) ↔ ∃ v, (s.term r).Exposes v := by
  have faithful := (empty_faithful.evolves before).1
  have hd := denotes_term hr
  obtain ⟨-, -, -, thaws⟩ := unfreeze_spec faithful hd
  rw [← Term.unfreeze_eq_notFrozen_iff (hd.over_full faithful.toWellFormed), ← thaws.map_term]
  cases ((unfreeze r).run s).1 with
  | error e => simp [Except.map]
  | ok q => simp [Except.map]

end

/-- Freezing and unfreezing undo each other for all terms that a store knows, whatever was asked of the store
before and in between, if nothing was frozen that it did not know yet. To unfreeze a term fails if and only if
it has a variable that is not below a rigid one. -/
theorem freeze_unfreeze_inverse (before : Evolves .empty s) (hr : r < s.size) :
    ((s.term r).Over .plain → ((freeze r s).2.term (freeze r s).1).IsGround ∧
      ∀ s', Evolves (freeze r s).2 s' → ((unfreeze (freeze r s).1).run s').1 = .ok r) ∧
    ((s.term r).IsGround → (s.term r).Over .rigid → ∃ q, ((unfreeze r).run s).1 = .ok q ∧
      (((unfreeze r).run s).2.term q).Over .plain ∧
      ∀ s', Evolves ((unfreeze r).run s).2 s' → (freeze q s').1 = r) ∧
    ((∃ v, ((unfreeze r).run s).1 = .error (.notFrozen v)) ↔ ∃ v, (s.term r).Exposes v) := by
  refine ⟨fun plain => ⟨?_, ?_⟩, ?_, unfreeze_fails_iff before hr⟩
  · obtain ⟨-, -, -, hq⟩ := freeze_spec (empty_faithful.evolves before).1 (denotes_term hr)
    rw [hq.2]
    exact Term.freeze_isGround
  · exact fun s' later => unfreeze_of_freeze before hr plain later
  · exact fun ground rigid => freeze_of_unfreeze before hr rigid ground

namespace Usage

theorem evolves_frozenVariable : Evolves .empty frozenVariable.store := by
  have made : Evolves .empty (({} : Usage).after (.var 7)).store :=
    .single ⟨.var 7, .inl (by decide), rfl⟩
  have used : Evolves .empty ((({} : Usage).after (.var 7)).after (.app (.symbol ⟨0⟩) [0, 0])).store :=
    made.tail ⟨.app (.symbol ⟨0⟩) [0, 0], .inl (by decide), rfl⟩
  exact used.tail ⟨.freeze 0, .inl (by decide), rfl⟩

theorem freeze_unfreeze_inverse_frozenVariable :
    Evolves .empty frozenVariable.store ∧ 1 < frozenVariable.store.size ∧ 2 < frozenVariable.store.size ∧
    ((unfreeze (freeze 1 frozenVariable.store).1).run (freeze 1 frozenVariable.store).2).1 = .ok 1 ∧
    (∃ q, ((unfreeze 2).run frozenVariable.store).1 = .ok q ∧
      (freeze q ((unfreeze 2).run frozenVariable.store).2).1 = 2) ∧
    ∃ v, ((unfreeze 1).run frozenVariable.store).1 = .error (.notFrozen v) := by
  have before := evolves_frozenVariable
  have known : 1 < frozenVariable.store.size ∧ 2 < frozenVariable.store.size := by decide
  have applied : frozenVariable.store.term 1 = .app (.symbol ⟨0⟩) [.var 7, .var 7] := by decide
  have frozen : frozenVariable.store.term 2 = .app (.frozen 7) [] := by decide
  have ofApplied := freeze_unfreeze_inverse before known.1
  have ofFrozen := freeze_unfreeze_inverse before known.2
  rw [applied] at ofApplied
  rw [frozen] at ofFrozen
  refine ⟨before, known.1, known.2, ?_, ?_, ?_⟩
  · refine (ofApplied.1 (.app trivial ?_)).2 _ .refl
    intro a ha
    rw [List.eq_of_mem_replicate (n := 2) ha]
    exact .var 7
  · obtain ⟨q, thawed, -, back⟩ := ofFrozen.2.1 rfl (.app rfl (by simp))
    exact ⟨q, thawed, back _ .refl⟩
  · exact ofApplied.2.2.2 ⟨7, Term.app_exposes.2 ⟨.var 7, List.mem_cons_self, Term.exposes_var.2 rfl⟩⟩

end Usage

/-- A reference that is frozen before the store knows it leads back to itself, also once it stands for a
variable. -/
theorem freeze_unknown_sticks :
    (var 3 (freeze 0 .empty).2).1 = 0 ∧ (var 3 (freeze 0 .empty).2).2.term 0 = .var 3 ∧
    (freeze 0 (var 3 (freeze 0 .empty).2).2).1 = 0 ∧
    ((unfreeze 0).run (freeze 0 (var 3 (freeze 0 .empty).2).2).2).1 = .error (.notFrozen 3) := by
  decide +kernel

end Store
end OrderedCompletion
