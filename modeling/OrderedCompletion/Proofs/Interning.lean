import OrderedCompletion.Proofs.Freezing

/-! A store as it is used: one operation after another, on references that it handed out before. -/

namespace OrderedCompletion

namespace Term

variable {t : Term} {v : Var}

theorem vars_sorted : t.vars.Pairwise (· < ·) := by
  cases t with
  | var v => exact List.pairwise_singleton _ v
  | app f args =>
      rw [vars]
      exact sortVars_sorted _
  | missing r => exact .nil

theorem mem_vars_iff_subtermAt : v ∈ t.vars ↔ ∃ p, t.subtermAt p = some (.var v) := by
  constructor
  · exact exists_subtermAt_var
  · rintro ⟨p, at_⟩
    exact mem_vars_of_subtermAt at_ (mem_vars_var.2 rfl)

end Term

namespace Store

/-- What can be asked of a store. -/
inductive Op where
  | var (v : Var)
  | app (f : Head) (args : List Ref)
  | rigid (v : Var)
  | resolve (r : Ref)
  | sizeOf (r : Ref)
  | vars (r : Ref)
  | isGround (r : Ref)
  | occurs (v : Var) (r : Ref)
  | contains (r u : Ref)
  | subtermAt (r : Ref) (p : Position)
  | replaceAt (r : Ref) (p : Position) (u : Ref)
  | appPositions (r : Ref)
  | freeze (r : Ref)
  | unfreeze (r : Ref)

/-- What it answers. -/
inductive Answer where
  | ref (out : Except TermError Ref)
  | node (node : Option Node)
  | size (n : UInt32)
  | vars (vs : List Var)
  | flag (b : Bool)
  | subterm (r : Option Ref)
  | places (found : List (Position × Ref))

/-- The references that an operation is asked about. -/
def Op.refs : Op → List Ref
  | .var _ => []
  | .app _ args => args
  | .rigid _ => []
  | .resolve r => [r]
  | .sizeOf r => [r]
  | .vars r => [r]
  | .isGround r => [r]
  | .occurs _ r => [r]
  | .contains r u => [r, u]
  | .subtermAt r _ => [r]
  | .replaceAt r _ u => [r, u]
  | .appPositions r => [r]
  | .freeze r => [r]
  | .unfreeze r => [r]

def Op.run : Op → StoreM Answer
  | .var v => return .ref (.ok (← Store.var v))
  | .app f args => return .ref (.ok (← Store.app f args))
  | .rigid v => return .ref (.ok (← Store.rigid v))
  | .resolve r => return .node ((← get).node? r)
  | .sizeOf r => return .size ((← get).sizeOf r)
  | .vars r => return .vars (← Store.vars r)
  | .isGround r => return .flag (← Store.isGround r)
  | .occurs v r => return .flag (← Store.occurs v r)
  | .contains r u => return .flag ((← get).contains r u)
  | .subtermAt r p => return .subterm ((← get).subtermAt r p)
  | .replaceAt r p u => return .ref (← (Store.replaceAt r p u).run)
  | .appPositions r => return .places ((← get).appPositions r)
  | .freeze r => return .ref (.ok (← Store.freeze r))
  | .unfreeze r => return .ref (← (Store.unfreeze r).run)

/-- The references that an answer hands out, those of a node's arguments among them. -/
def Answer.refs : Answer → List Ref
  | .ref (.ok r) => [r]
  | .ref (.error _) => []
  | .node (some (.app _ args)) => args
  | .node (some (.var _)) => []
  | .node none => []
  | .size _ => []
  | .vars _ => []
  | .flag _ => []
  | .subterm r => r.toList
  | .places found => found.map (·.2)

/-- A store with the references that it handed out so far. -/
structure Usage where
  store : Store := .empty
  given : List Ref := []

namespace Usage

/-- One more operation. -/
def after (u : Usage) (op : Op) : Usage where
  store := (op.run u.store).2
  given := u.given ++ (op.run u.store).1.refs

/-- The operation is only asked about references that were handed out before. -/
def Step (u u' : Usage) : Prop := ∃ op : Op, (∀ r ∈ op.refs, r ∈ u.given) ∧ u' = u.after op

def Reaches : Usage → Usage → Prop := Relation.ReflTransGen Step

/-- What was noted is true, and all references handed out lead to terms. -/
structure Sound (u : Usage) : Prop where
  faithful : u.store.Faithful
  stored : ∀ r ∈ u.given, r < u.store.size

end Usage

variable {s s' : Store} {r q : Ref} {p : Position} {u u' : Usage}

theorem vars_spares (r : Ref) : StoreM.Spares (vars r) := .bind .get fun s => varsWithin_spares s.bound r

theorem subtermAt_lt_size (wf : s.WellFormed) (hr : r < s.size) (h : s.subtermAt r p = some q) :
    q < s.size := by
  induction p generalizing r with
  | nil =>
      rw [subtermAt, Option.some.injEq] at h
      exact h ▸ hr
  | cons i p ih =>
      obtain ⟨f, args, a, hnode, ha, h⟩ := subtermAt_cons_eq_some_iff.1 h
      exact ih (Nat.lt_trans (wf.below hnode a (List.mem_of_getElem? ha)) hr) h

theorem replaceAt_faithful {u : Ref} (h : s.Faithful) (hr : r < s.size) (hu : u < s.size) :
    s.Ensures (replaceAt r p u).run fun out s' => s'.Faithful ∧ ∀ q, out = .ok q → q < s'.size := by
  induction p generalizing r with
  | nil =>
      rw [replaceAt]
      refine .pure h.toWellFormed ⟨h, ?_⟩
      rintro q ⟨⟩
      exact hu
  | cons i p ih =>
      have refused : ∀ e, s.Ensures (throw e : ExceptT TermError StoreM Ref).run
          fun out s' => s'.Faithful ∧ ∀ q, out = .ok q → q < s'.size := by
        refine fun e => .pure h.toWellFormed ⟨h, ?_⟩
        rintro q ⟨⟩
      rw [replaceAt]
      refine (Ensures.getThe h.toWellFormed).bindOk ?_
      rintro _ s' - - ⟨rfl, rfl⟩
      split
      · rename_i f args hnode
        split
        · rename_i a ha
          have lt := Nat.lt_trans (h.below hnode a (List.mem_of_getElem? ha)) hr
          have inner : s'.Ensures (ExceptT.adapt (fun _ => TermError.invalidPosition (i :: p))
              (replaceAt a p u)).run fun out s₁ => s' ≤ s₁ ∧ s₁.Faithful ∧ ∀ q, out = .ok q → q < s₁.size := by
            refine Ensures.map (ih lt) ?_
            rintro out s₁ - le₁ ⟨h₁, hq⟩
            refine ⟨le₁, h₁, ?_⟩
            rintro q same
            cases out with
            | ok a => exact hq q same
            | error e => cases same
          refine inner.bindExcept ?_ ?_
          · rintro q s₁ wf₁ - ⟨le₁, h₁, hq⟩
            have all : s₁.DenotesAll (args.set i q) ((args.set i q).map s₁.term) := by
              refine List.forall₂_map_right_iff.2 (List.forall₂_same.2 fun b hb => denotes_term ?_)
              rcases List.mem_or_eq_of_mem_set hb with old | rfl
              · exact Nat.lt_of_lt_of_le (Nat.lt_trans (h.below hnode b old) hr) (size_le_of_le le₁)
              · exact hq b rfl
            refine (h₁.after (intern_spares _) (app_spec (f := f) wf₁ all)).map ?_
            rintro out s₂ - - ⟨h₂, hout⟩
            refine ⟨h₂, ?_⟩
            rintro _ ⟨⟩
            exact hout.1
          · rintro e s₁ - - ⟨-, h₁, -⟩
            refine ⟨h₁, ?_⟩
            rintro q ⟨⟩
        · exact refused _
      · exact refused _
      · exact refused _

/-- What is noted stays true, and the references that are handed out lead to terms. -/
def Serves (s : Store) (x : StoreM Answer) : Prop :=
  s.Ensures x fun a s' => s'.Faithful ∧ ∀ r ∈ a.refs, r < s'.size

theorem Serves.read (answer : Store → Answer) (h : s.Faithful) (stored : ∀ r ∈ (answer s).refs, r < s.size) :
    s.Serves (do return answer (← get)) :=
  ⟨h.toWellFormed, le_rfl, h, stored⟩

theorem Serves.silent {α : Type} {x : StoreM α} {Q : α → Store → Prop} {answer : α → Answer} (h : s.Faithful)
    (spares : StoreM.Spares x) (hx : s.Ensures x Q) (none : ∀ a, (answer a).refs = []) :
    s.Serves (do return answer (← x)) := by
  refine (h.after spares hx).map fun a s' _ _ out => ⟨out.1, ?_⟩
  rw [none a]
  exact fun r hr => absurd hr List.not_mem_nil

theorem Serves.ref {x : StoreM (Except TermError Ref)}
    (hx : s.Ensures x fun out s' => s'.Faithful ∧ ∀ r, out = .ok r → r < s'.size) :
    s.Serves (do return .ref (← x)) := by
  refine hx.map fun out s' _ _ ⟨h', small⟩ => ⟨h', fun r hr => ?_⟩
  cases out with
  | error e => exact absurd hr List.not_mem_nil
  | ok q =>
      rw [List.mem_singleton.1 hr]
      exact small q rfl

theorem Serves.made {x : StoreM Ref} {t : Term} (hx : s.Ensures x fun r s' => s'.Faithful ∧ s'.Denotes r t) :
    s.Serves (do return .ref (.ok (← x))) := by
  change s.Ensures ((fun r => Answer.ref (.ok r)) <$> x) _
  refine Ensures.map hx fun r s' _ _ ⟨h', hr⟩ => ⟨h', fun q hq => ?_⟩
  rw [List.mem_singleton.1 hq]
  exact hr.1

theorem Faithful.serves {op : Op} (h : s.Faithful) (stored : ∀ r ∈ op.refs, r < s.size) : s.Serves op.run := by
  have wf := h.toWellFormed
  have denotes : ∀ r ∈ op.refs, s.Denotes r (s.term r) := fun r hr => denotes_term (stored r hr)
  cases op with
  | var v => exact .made (h.after (intern_spares _) (var_spec wf v))
  | app f args =>
      have all : s.DenotesAll args (args.map s.term) :=
        List.forall₂_map_right_iff.2 (List.forall₂_same.2 denotes)
      exact .made (h.after (intern_spares _) (app_spec wf all))
  | rigid v => exact .made (h.after (intern_spares _) (app_spec wf .nil))
  | resolve r =>
      refine .read (fun s => .node (s.node? r)) h fun a ha => ?_
      cases hnode : s.node? r with
      | none =>
          rw [hnode] at ha
          exact absurd ha List.not_mem_nil
      | some node =>
          rw [hnode] at ha
          cases node with
          | var v => exact absurd ha List.not_mem_nil
          | app f args => exact Nat.lt_trans (wf.below hnode a ha) (stored r List.mem_cons_self)
  | sizeOf r => exact .read (fun s => .size (s.sizeOf r)) h fun a ha => absurd ha List.not_mem_nil
  | vars r => exact .silent h (vars_spares r) (vars_spec wf (denotes r List.mem_cons_self)) fun _ => rfl
  | isGround r =>
      have spares := (vars_spares r).bind fun vs => .pure vs.isEmpty
      exact .silent h spares (isGround_spec wf (denotes r List.mem_cons_self)) fun _ => rfl
  | occurs v r =>
      have spares := (vars_spares r).bind fun vs => .pure (vs.contains v)
      exact .silent h spares (occurs_spec wf (denotes r List.mem_cons_self) v) fun _ => rfl
  | contains r q =>
      exact .read (fun s => .flag (s.contains r q)) h fun a ha => absurd ha List.not_mem_nil
  | subtermAt r p =>
      refine .read (fun s => .subterm (s.subtermAt r p)) h fun a ha => ?_
      exact subtermAt_lt_size wf (stored r List.mem_cons_self) (Option.mem_toList.1 ha)
  | replaceAt r p q =>
      exact .ref (replaceAt_faithful h (stored r List.mem_cons_self)
        (stored q (List.mem_cons_of_mem r List.mem_cons_self)))
  | appPositions r =>
      refine .read (fun s => .places (s.appPositions r)) h fun a ha => ?_
      obtain ⟨⟨p, b⟩, found, rfl⟩ := List.mem_map.1 ha
      obtain ⟨t, -, -, hb⟩ := (mem_appPositions wf (denotes r List.mem_cons_self)).1 found
      exact hb.1
  | freeze r => exact .made (freeze_spec h (denotes r List.mem_cons_self))
  | unfreeze r =>
      refine .ref ((unfreeze_spec h (denotes r List.mem_cons_self)).mono ?_)
      rintro out s' - - ⟨h', thaws⟩
      refine ⟨h', ?_⟩
      rintro q rfl
      obtain ⟨t, -, hq⟩ := thaws
      exact hq.1

namespace Usage

theorem Sound.step (h : u.Sound) (step : Step u u') :
    u'.Sound ∧ u.store ≤ u'.store ∧ u.given ⊆ u'.given := by
  obtain ⟨op, known, rfl⟩ := step
  obtain ⟨-, le, faithful, stored⟩ := h.faithful.serves fun r hr => h.stored r (known r hr)
  refine ⟨⟨faithful, fun r hr => ?_⟩, le, List.subset_append_left _ _⟩
  rcases List.mem_append.1 hr with old | new
  · exact Nat.lt_of_lt_of_le (h.stored r old) (size_le_of_le le)
  · exact stored r new

theorem Sound.reaches (h : u.Sound) (run : Reaches u u') :
    u'.Sound ∧ u.store ≤ u'.store ∧ u.given ⊆ u'.given := by
  induction run with
  | refl => exact ⟨h, le_rfl, fun _ hr => hr⟩
  | tail _ step ih =>
      obtain ⟨sound, le, sub⟩ := ih
      obtain ⟨sound', le', sub'⟩ := sound.step step
      exact ⟨sound', le.trans le', fun r hr => sub' (sub hr)⟩

theorem new_sound : Sound {} where
  faithful := empty_faithful
  stored := fun _ hr => absurd hr List.not_mem_nil

/-- References that were handed out stand for trees, each tree for itself, and what is answered about them
is what holds of the trees. -/
structure Exact (u : Usage) : Prop where
  tree : ∀ r ∈ u.given, (u.store.term r).Over .full
  eq_iff : ∀ r ∈ u.given, ∀ q ∈ u.given, r = q ↔ u.store.term r = u.store.term q
  node : ∀ r ∈ u.given, (∃ v, u.store.node? r = some (.var v) ∧ u.store.term r = .var v) ∨
    ∃ f args, u.store.node? r = some (.app f args) ∧ (∀ a ∈ args, a < r) ∧
      u.store.term r = .app f (args.map u.store.term)
  vars : ∀ r ∈ u.given, (Store.vars r u.store).1.Pairwise (· < ·) ∧
    ∀ v, v ∈ (Store.vars r u.store).1 ↔ ∃ p, (u.store.term r).subtermAt p = some (.var v)
  isGround : ∀ r ∈ u.given, (Store.isGround r u.store).1 = true ↔
    ∀ v p, (u.store.term r).subtermAt p ≠ some (.var v)
  occurs : ∀ r ∈ u.given, ∀ v, (Store.occurs v r u.store).1 = true ↔
    ∃ p, (u.store.term r).subtermAt p = some (.var v)
  freeze : ∀ r ∈ u.given,
    (Store.freeze r u.store).2.term (Store.freeze r u.store).1 = (u.store.term r).freeze
  unfreeze : ∀ r ∈ u.given,
    ((Store.unfreeze r).run u.store).1.map ((Store.unfreeze r).run u.store).2.term = (u.store.term r).unfreeze

theorem Sound.exact (h : u.Sound) : u.Exact := by
  have wf := h.faithful.toWellFormed
  have denotes : ∀ r ∈ u.given, u.store.Denotes r (u.store.term r) := fun r hr => denotes_term (h.stored r hr)
  have vars : ∀ r ∈ u.given, (Store.vars r u.store).1 = (u.store.term r).vars :=
    fun r hr => (vars_spec wf (denotes r hr)).2.2.1
  constructor
  case tree => exact fun r hr => (denotes r hr).over_full wf
  case eq_iff => exact fun r hr q hq => (denotes r hr).eq_iff (denotes q hq) wf
  case node =>
    intro r hr
    obtain ⟨node, hnode⟩ := exists_node (h.stored r hr)
    cases node with
    | var v => exact .inl ⟨v, hnode, wf.below.term_var hnode⟩
    | app f args => exact .inr ⟨f, args, hnode, wf.below hnode, wf.below.term_app hnode⟩
  case vars =>
    intro r hr
    rw [vars r hr]
    exact ⟨Term.vars_sorted, fun v => Term.mem_vars_iff_subtermAt⟩
  case isGround =>
    intro r hr
    have answer := (isGround_spec wf (denotes r hr)).2.2.1
    rw [answer, List.isEmpty_iff, List.eq_nil_iff_forall_not_mem]
    refine forall_congr' fun v => ?_
    rw [Term.mem_vars_iff_subtermAt, not_exists]
  case occurs =>
    intro r hr v
    have answer := (occurs_spec wf (denotes r hr) v).2.2.1
    rw [answer, List.contains_iff_mem, Term.mem_vars_iff_subtermAt]
  case freeze =>
    intro r hr
    obtain ⟨-, -, -, hq⟩ := freeze_spec h.faithful (denotes r hr)
    exact hq.2
  case unfreeze =>
    intro r hr
    obtain ⟨-, -, -, thaws⟩ := unfreeze_spec h.faithful (denotes r hr)
    exact thaws.map_term

/-- However a store is used, the references that it hands out stand for different trees if and only if they
differ, they go on to stand for them, and what is answered about them holds of the trees. -/
theorem interning_exact (before : Reaches {} u) (later : Reaches u u') :
    u.Exact ∧ ∀ r ∈ u.given, u'.store.node? r = u.store.node? r ∧ u'.store.term r = u.store.term r := by
  have sound := (new_sound.reaches before).1
  obtain ⟨sound', le, -⟩ := sound.reaches later
  refine ⟨sound.exact, fun r hr => ⟨?_, ?_⟩⟩
  · obtain ⟨node, hnode⟩ := exists_node (sound.stored r hr)
    rw [hnode, le r node hnode]
  · exact sound.faithful.below.term_of_le sound'.faithful.below le (sound.stored r hr)

theorem Reaches.after {op : Op} (h : Reaches u u') (known : ∀ r ∈ op.refs, r ∈ u'.given) :
    Reaches u (u'.after op) := .tail h ⟨op, known, rfl⟩

/-- A variable, an application to it, and the variable frozen. -/
def frozenVariable : Usage :=
  ((({} : Usage).after (.var 7)).after (.app (.symbol ⟨0⟩) [0, 0])).after (.freeze 0)

theorem interning_exact_frozenVariable :
    Reaches {} frozenVariable ∧ frozenVariable.given = [0, 1, 2] ∧ frozenVariable.Exact ∧
      ∀ r ∈ frozenVariable.given,
        (frozenVariable.after (.unfreeze 2)).store.node? r = frozenVariable.store.node? r ∧
        (frozenVariable.after (.unfreeze 2)).store.term r = frozenVariable.store.term r := by
  have made : Reaches {} (({} : Usage).after (.var 7)) := Reaches.after .refl (by decide)
  have used : Reaches {} frozenVariable := (made.after (by decide)).after (by decide)
  have later : Reaches frozenVariable (frozenVariable.after (.unfreeze 2)) := Reaches.after .refl (by decide)
  exact ⟨used, by decide, interning_exact used later⟩

end Usage

end Store
end OrderedCompletion
