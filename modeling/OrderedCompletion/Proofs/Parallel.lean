import Mathlib.Data.Set.Monotone
import OrderedCompletion.Proofs.Cutting
import OrderedCompletion.Proofs.LeastUnifiers

/-! Two runs side by side that do the same but for the names of the variables that they make up, and what
actions on either side have to do with each other. -/

namespace OrderedCompletion

open TermM (bind_apply)

/-- Where a run stands whose source counts and which nobody asked to stop. -/
structure Side where
  store : Store
  wellFormed : store.WellFormed
  counted : store.Counted
  /-- The source counts on from here. -/
  next : Var
  started : firstFresh ≤ next
  bounded : next ≤ lastVar
  reserved : List Var

namespace Side

variable {a a' a'' : Side}

def workspace (a : Side) : Workspace := { supply := ⟨.counting a.next, a.reserved⟩ }

/-- Terms were stored and variables drawn. -/
structure Later (a a' : Side) : Prop where
  store : a.store ≤ a'.store
  next : a.next ≤ a'.next
  reserved : a'.reserved = a.reserved

theorem Later.refl (a : Side) : a.Later a := ⟨le_rfl, le_rfl, rfl⟩

theorem Later.trans (h : a.Later a') (h' : a'.Later a'') : a.Later a'' :=
  ⟨h.store.trans h'.store, h.next.trans h'.next, h'.reserved.trans h.reserved⟩

/-- The same run with another store. -/
def withStore (a : Side) (s : Store) (wf : s.WellFormed) (counted : s.Counted) : Side :=
  { a with store := s, wellFormed := wf, counted := counted }

theorem later_withStore {s : Store} (wf : s.WellFormed) (counted : s.Counted) (le : a.store ≤ s) :
    a.Later (a.withStore s wf counted) := ⟨le, le_rfl, rfl⟩

theorem sizeOf_eq {r : Ref} {t : Term} (a : Side) (h : a.store.Denotes r t) :
    (a.store.sizeOf r).toNat = t.wordSize := by
  rw [a.counted.2 r h.1, h.2]
  rfl

end Side

/-- Two runs whose variables correspond. Those that are reserved on the left are the same on both sides, and the
others were drawn in the same order. -/
structure Parallel where
  left : Side
  right : Side
  /-- The name on the right of a variable on the left. -/
  names : Equiv.Perm Var
  /-- The variables on the left that have a name on the right. -/
  known : Set Var
  own : ∀ v ∈ left.reserved, v ∈ known ∧ names v = v ∧ v ∈ right.reserved
  drawn : ∀ v ∈ known, v ∉ left.reserved →
    v < left.next ∧ firstFresh ≤ names v ∧ names v < right.next ∧ names v ∉ right.reserved
  mono : StrictMonoOn names {v | v ∈ known ∧ v ∉ left.reserved}

namespace Parallel

variable {P P' P'' : Parallel} {r r' q q' : Ref} {a b : Term} {v w : Var}

/-- Both runs went on, and variables keep their names. -/
structure Extends (P P' : Parallel) : Prop where
  left : P.left.Later P'.left
  right : P.right.Later P'.right
  known : P.known ⊆ P'.known
  names : ∀ v ∈ P.known, P'.names v = P.names v

theorem Extends.refl (P : Parallel) : P.Extends P := ⟨.refl _, .refl _, subset_rfl, fun _ _ => rfl⟩

theorem Extends.trans (h : P.Extends P') (h' : P'.Extends P'') : P.Extends P'' where
  left := h.left.trans h'.left
  right := h.right.trans h'.right
  known := h.known.trans h'.known
  names := fun v hv => (h'.names v (h.known hv)).trans (h.names v hv)

/-- References to a term on the left and to the renamed term on the right. -/
structure Reads (P : Parallel) (a : Term) (r q : Ref) : Prop where
  left : P.left.store.Denotes r a
  right : P.right.store.Denotes q (a.rename P.names)
  known : ∀ v ∈ a.vars, v ∈ P.known

/-- References to terms that correspond. -/
def Twin (P : Parallel) (r q : Ref) : Prop := ∃ a, P.Reads a r q

theorem Reads.mono (h : P.Reads a r q) (ext : P.Extends P') : P'.Reads a r q where
  left := h.left.mono P.left.wellFormed P'.left.wellFormed ext.left.store
  right := by
    rw [Term.rename_congr fun v hv => ext.names v (h.known v hv)]
    exact h.right.mono P.right.wellFormed P'.right.wellFormed ext.right.store
  known := fun v hv => ext.known (h.known v hv)

theorem Twin.mono (h : P.Twin r q) (ext : P.Extends P') : P'.Twin r q := h.imp fun _ h => h.mono ext

theorem Reads.unique (h : P.Reads a r q) (h' : P.Reads b r q') : a = b := h.left.unique h'.left

/-- References are equal on the left exactly if they are on the right. -/
theorem Reads.eq_iff (h : P.Reads a r q) (h' : P.Reads b r' q') : r = r' ↔ q = q' := by
  rw [h.left.eq_iff h'.left P.left.wellFormed, h.right.eq_iff h'.right P.right.wellFormed,
    (Term.rename_injective P.names).eq_iff]

theorem Twin.eq_iff (h : P.Twin r q) (h' : P.Twin r' q') : r = r' ↔ q = q' := by
  obtain ⟨a, h⟩ := h
  obtain ⟨b, h'⟩ := h'
  exact h.eq_iff h'

theorem Reads.sizeOf_eq (h : P.Reads a r q) : P.right.store.sizeOf q = P.left.store.sizeOf r := by
  apply UInt32.toNat_inj.1
  rw [P.right.sizeOf_eq h.right, P.left.sizeOf_eq h.left, Term.wordSize_rename]

/-- The sides of two equations correspond, and the variables of both sides have names in the same order. -/
structure Shows (P : Parallel) (c : Term × Term) (e d : Equation) : Prop where
  lhs : P.Reads c.1 e.lhs d.lhs
  rhs : P.Reads c.2 e.rhs d.rhs
  ordered : StrictMonoOn P.names {v | v ∈ c.1.vars ∨ v ∈ c.2.vars}

/-- Equations that correspond. -/
def TwinEq (P : Parallel) (e d : Equation) : Prop := ∃ c, P.Shows c e d

/-- Rules that correspond. Their right sides have no variables of their own. -/
def TwinRule (P : Parallel) (e d : Equation) : Prop := ∃ c, P.Shows c e d ∧ c.1.Keeps c.2

variable {c : Term × Term} {e e' d d' : Equation}

theorem Shows.mono (h : P.Shows c e d) (ext : P.Extends P') : P'.Shows c e d where
  lhs := h.lhs.mono ext
  rhs := h.rhs.mono ext
  ordered := by
    have known : ∀ v ∈ {v | v ∈ c.1.vars ∨ v ∈ c.2.vars}, v ∈ P.known :=
      fun v hv => hv.elim (h.lhs.known v) (h.rhs.known v)
    intro v hv w hw less
    rw [ext.names v (known v hv), ext.names w (known w hw)]
    exact h.ordered hv hw less

theorem TwinEq.mono (h : P.TwinEq e d) (ext : P.Extends P') : P'.TwinEq e d := h.imp fun _ h => h.mono ext

theorem TwinRule.mono (h : P.TwinRule e d) (ext : P.Extends P') : P'.TwinRule e d :=
  h.imp fun _ h => ⟨h.1.mono ext, h.2⟩

theorem TwinRule.twinEq (h : P.TwinRule e d) : P.TwinEq e d := h.imp fun _ h => h.1

theorem Shows.reversed (h : P.Shows c e d) : P.Shows c.swap e.reversed d.reversed where
  lhs := h.rhs
  rhs := h.lhs
  ordered := h.ordered.mono fun _ hv => Or.symm hv

theorem TwinEq.reversed (h : P.TwinEq e d) : P.TwinEq e.reversed d.reversed := by
  obtain ⟨c, h⟩ := h
  exact ⟨c.swap, h.reversed⟩

theorem Shows.isTrivial_eq (h : P.Shows c e d) : d.isTrivial = e.isTrivial :=
  decide_eq_decide.2 (h.lhs.eq_iff h.rhs).symm

theorem TwinEq.isTrivial_eq (h : P.TwinEq e d) : d.isTrivial = e.isTrivial := h.elim fun _ h => h.isTrivial_eq

theorem TwinEq.eq_iff (h : P.TwinEq e d) (h' : P.TwinEq e' d') : e = e' ↔ d = d' := by
  obtain ⟨c, h⟩ := h
  obtain ⟨c', h'⟩ := h'
  obtain ⟨l, r⟩ := e
  obtain ⟨l', r'⟩ := e'
  obtain ⟨x, y⟩ := d
  obtain ⟨x', y'⟩ := d'
  rw [Equation.mk.injEq, Equation.mk.injEq]
  exact and_congr (h.lhs.eq_iff h'.lhs) (h.rhs.eq_iff h'.rhs)

/-- The variables that were made up. -/
def Drawn (P : Parallel) : Set Var := {v | v ∈ P.known ∧ v ∉ P.left.reserved}

theorem Extends.drawn (ext : P.Extends P') : P.Drawn ⊆ P'.Drawn :=
  fun _ hv => ⟨ext.known hv.1, ext.left.reserved ▸ hv.2⟩

/-- Equations all of whose variables were made up. -/
theorem shows_of_drawn (left : P.Reads a e.lhs d.lhs) (right : P.Reads b e.rhs d.rhs)
    (ha : ∀ v ∈ a.vars, v ∈ P.Drawn) (hb : ∀ v ∈ b.vars, v ∈ P.Drawn) : P.Shows (a, b) e d :=
  ⟨left, right, P.mono.mono fun v hv => hv.elim (ha v) (hb v)⟩

/-- The same runs with other stores. -/
def withStores (P : Parallel) (s s' : Store) (wf : s.WellFormed) (counted : s.Counted) (wf' : s'.WellFormed)
    (counted' : s'.Counted) : Parallel :=
  { P with left := P.left.withStore s wf counted, right := P.right.withStore s' wf' counted' }

variable {α α' β β' : Type}

/-- The actions on the two stores lead to stores and outcomes as described. Nothing is drawn. -/
def Does (P : Parallel) (x : StoreM α) (y : StoreM α') (Q : Parallel → α → α' → Prop) : Prop :=
  ∃ P', P.Extends P' ∧ P'.left.workspace = P.left.workspace ∧ P'.right.workspace = P.right.workspace ∧
    P'.left.store = (x P.left.store).2 ∧ P'.right.store = (y P.right.store).2 ∧
    Q P' (x P.left.store).1 (y P.right.store).1

section
variable {x : StoreM α} {y : StoreM α'} {f : α → StoreM β} {g : α' → StoreM β'}
variable {Q : Parallel → α → α' → Prop} {R : Parallel → β → β' → Prop}

theorem Does.pure {a : α} {a' : α'} (h : Q P a a') : P.Does (Pure.pure a) (Pure.pure a') Q :=
  ⟨P, .refl P, rfl, rfl, rfl, rfl, h⟩

theorem Does.bind (hx : P.Does x y Q)
    (hf : ∀ P' a a', P.Extends P' → Q P' a a' → P'.Does (f a) (g a') R) : P.Does (x >>= f) (y >>= g) R := by
  obtain ⟨P₁, ext₁, work₁, work₁', left₁, right₁, h⟩ := hx
  obtain ⟨P₂, ext₂, work₂, work₂', left₂, right₂, h'⟩ := hf P₁ _ _ ext₁ h
  rw [left₁] at left₂ h'
  rw [right₁] at right₂ h'
  exact ⟨P₂, ext₁.trans ext₂, work₂.trans work₁, work₂'.trans work₁', left₂, right₂, h'⟩

/-- What each of the actions ensures in its store. -/
theorem does {A : α → Store → Prop} {B : α' → Store → Prop} (hx : P.left.store.Ensures x A)
    (grows : StoreM.Grows x) (hy : P.right.store.Ensures y B) (grows' : StoreM.Grows y)
    (h : ∀ P' a a', P.Extends P' → P'.names = P.names → P'.known = P.known → A a P'.left.store →
      B a' P'.right.store → Q P' a a') : P.Does x y Q := by
  obtain ⟨wf, le, hA⟩ := hx
  obtain ⟨wf', le', hB⟩ := hy
  have counted := P.left.counted.grown (grows _) wf.below
  have counted' := P.right.counted.grown (grows' _) wf'.below
  have ext : P.Extends (P.withStores _ _ wf counted wf' counted') :=
    ⟨Side.later_withStore wf counted le, Side.later_withStore wf' counted' le', subset_rfl, fun _ _ => rfl⟩
  exact ⟨_, ext, rfl, rfl, rfl, rfl, h _ _ _ ext rfl rfl hA hB⟩

/-- Searches in lists whose elements correspond. -/
theorem Does.anyM {p : α → StoreM Bool} {p' : α' → StoreM Bool} {as : List α} {bs : List α'}
    {S : Parallel → α → α' → Prop} (later : ∀ P' a b, P.Extends P' → S P a b → S P' a b)
    (h : List.Forall₂ (S P) as bs)
    (step : ∀ P' a b, P.Extends P' → S P' a b → P'.Does (p a) (p' b) fun _ yes yes' => yes' = yes) :
    P.Does (as.anyM p) (bs.anyM p') fun _ yes yes' => yes' = yes := by
  suffices all : ∀ P', P.Extends P' → P'.Does (as.anyM p) (bs.anyM p') fun _ yes yes' => yes' = yes from
    all P (.refl P)
  induction h with
  | nil => exact fun P' _ => .pure rfl
  | cons here _ ih =>
      intro P' ext
      rw [List.anyM_cons, List.anyM_cons]
      refine (step P' _ _ ext (later P' _ _ ext here)).bind ?_
      rintro P₁ _ yes ext₁ rfl
      cases yes with
      | true => exact .pure rfl
      | false => exact ih P₁ (ext.trans ext₁)

end

end Parallel

/-- States with a supply of fresh variables and with a wish to stop. -/
class Working (σ : Type) where
  workspace : σ → Workspace

instance : Working Workspace := ⟨id⟩

instance : Working ReduceState := ⟨ReduceState.workspace⟩

instance : Working Superposer := ⟨Superposer.workspace⟩

instance : Working Engine := ⟨Engine.workspace⟩

open Working

namespace TermM

variable {σ τ ε δ α α' β β' : Type} [Working σ] [Working τ] {P : Parallel} {w w' : σ}
variable {x : TermM σ ε α} {y : TermM σ ε α'} {f : α → TermM σ ε β} {g : α' → TermM σ ε β'}

/-- The action failed, and the run has no variables left. -/
def Drained (out : (Except ε α × σ) × Store) : Prop :=
  (∃ err, out.1.1 = .error err) ∧ (workspace out.1.2).supply.source = .listed []

/-- Where the action on the left succeeds, the one on the right does so with an outcome that corresponds, or it
runs out of variables. -/
def Mirrors (P : Parallel) (w w' : σ) (x : TermM σ ε α) (y : TermM σ ε α')
    (Q : Parallel → α → α' → σ → σ → Prop) : Prop :=
  workspace w = P.left.workspace → workspace w' = P.right.workspace →
    ∀ a w₁ s₁, x w P.left.store = ((.ok a, w₁), s₁) →
      (∃ P' a' w₁', P.Extends P' ∧ s₁ = P'.left.store ∧
        y w' P.right.store = ((.ok a', w₁'), P'.right.store) ∧ workspace w₁ = P'.left.workspace ∧
        workspace w₁' = P'.right.workspace ∧ Q P' a a' w₁ w₁') ∨
      Drained (y w' P.right.store)

variable {Q Q' : Parallel → α → α' → σ → σ → Prop} {R : Parallel → β → β' → σ → σ → Prop}

theorem Mirrors.pure {a : α} {a' : α'} (h : Q P a a' w w') :
    Mirrors P w w' (Pure.pure a : TermM σ ε α) (Pure.pure a') Q := by
  rintro work work' _ _ _ ⟨⟩
  exact .inl ⟨P, a', w', .refl P, rfl, rfl, work, work', h⟩

theorem Mirrors.throw {e : ε} : Mirrors P w w' (throwThe ε e : TermM σ ε α) y Q := by
  rintro - - _ _ _ ⟨⟩

theorem Mirrors.mono (hx : Mirrors P w w' x y Q)
    (h : ∀ P' a a' w₁ w₁', P.Extends P' → Q P' a a' w₁ w₁' → Q' P' a a' w₁ w₁') :
    Mirrors P w w' x y Q' := by
  intro work work' a w₁ s₁ run
  refine (hx work work' a w₁ s₁ run).imp_left ?_
  rintro ⟨P', a', w₁', ext, left, right, works, works', hQ⟩
  exact ⟨P', a', w₁', ext, left, right, works, works', h P' a a' w₁ w₁' ext hQ⟩

omit [Working σ] in
theorem exists_of_bind_ok {s s' : Store} {b : β} {w₁ : σ} (h : (x >>= f) w s = ((.ok b, w₁), s')) :
    ∃ a w₂ s₂, x w s = ((.ok a, w₂), s₂) ∧ f a w₂ s₂ = ((.ok b, w₁), s') := by
  rw [bind_apply] at h
  rcases outcome : x w s with ⟨⟨err | a, w₂⟩, s₂⟩
  · rw [outcome] at h
    cases h
  · rw [outcome] at h
    exact ⟨a, w₂, s₂, rfl, h⟩

theorem Drained.bind {s : Store} (h : Drained (y w s)) : Drained ((y >>= g) w s) := by
  obtain ⟨⟨err, failed⟩, empty⟩ := h
  rw [bind_apply, failed]
  exact ⟨⟨err, rfl⟩, empty⟩

theorem Mirrors.bind (hx : Mirrors P w w' x y Q)
    (hf : ∀ P' a a' w₁ w₁', P.Extends P' → Q P' a a' w₁ w₁' → Mirrors P' w₁ w₁' (f a) (g a') R) :
    Mirrors P w w' (x >>= f) (y >>= g) R := by
  intro work work' b w₂ s₂ run
  obtain ⟨a, w₁, s₁, first, then_⟩ := exists_of_bind_ok run
  rcases hx work work' a w₁ s₁ first with ⟨P₁, a', w₁', ext₁, rfl, right, work₁, work₁', hQ⟩ | drained
  · have next : (y >>= g) w' P.right.store = g a' w₁' P₁.right.store := by rw [bind_apply, right]
    rw [next]
    refine (hf P₁ a a' w₁ w₁' ext₁ hQ work₁ work₁' b w₂ s₂ then_).imp_left ?_
    rintro ⟨P₂, b', w₂', ext₂, rest⟩
    exact ⟨P₂, b', w₂', ext₁.trans ext₂, rest⟩
  · exact .inr drained.bind

/-- What is known of the workspaces may be used. -/
theorem Mirrors.working
    (h : workspace w = P.left.workspace → workspace w' = P.right.workspace → Mirrors P w w' x y Q) :
    Mirrors P w w' x y Q :=
  fun work work' => h work work' work work'

theorem Mirrors.bindGet {f : σ → TermM σ ε β} {g : σ → TermM σ ε β'} (h : Mirrors P w w' (f w) (g w') R) :
    Mirrors P w w' (get >>= f) (get >>= g) R := h

theorem Mirrors.bindStore {f : Store → TermM σ ε β} {g : Store → TermM σ ε β'}
    (h : Mirrors P w w' (f P.left.store) (g P.right.store) R) :
    Mirrors P w w' (getThe Store >>= f) (getThe Store >>= g) R := h

theorem Mirrors.bindModify {m m' : σ → σ} {f : PUnit → TermM σ ε β} {g : PUnit → TermM σ ε β'}
    (keeps : workspace (m w) = workspace w) (keeps' : workspace (m' w') = workspace w')
    (h : Mirrors P (m w) (m' w') (f ⟨⟩) (g ⟨⟩) R) :
    Mirrors P w w' (modify m >>= f) (modify m' >>= g) R :=
  fun work work' => h (keeps.trans work) (keeps'.trans work')

theorem Mirrors.modify {m m' : σ → σ} {Q : Parallel → PUnit → PUnit → σ → σ → Prop}
    (keeps : workspace (m w) = workspace w) (keeps' : workspace (m' w') = workspace w')
    (h : Q P ⟨⟩ ⟨⟩ (m w) (m' w')) :
    Mirrors P w w' (modify m : TermM σ ε PUnit) (modify m') Q := by
  rintro work work' _ _ _ ⟨⟩
  exact .inl ⟨P, ⟨⟩, m' w', .refl P, rfl, rfl, keeps.trans work, keeps'.trans work', h⟩

/-- Actions on the stores leave the rest alone. -/
theorem Mirrors.lift {x : StoreM α} {y : StoreM α'} {S : Parallel → α → α' → Prop} (hx : P.Does x y S)
    (h : ∀ P' a a', P.Extends P' → S P' a a' → Q P' a a' w w') :
    Mirrors P w w' (liftM x : TermM σ ε α) (liftM y) Q := by
  obtain ⟨P', ext, work₁, work₁', left, right, hS⟩ := hx
  rintro work work' _ _ _ ⟨⟩
  refine .inl ⟨P', _, w', ext, left.symm, ?_, work.trans work₁.symm, work'.trans work₁'.symm, h P' _ _ ext hS⟩
  rw [right]
  rfl

theorem Mirrors.bindLift {x : StoreM α} {y : StoreM α'} {S : Parallel → α → α' → Prop} (hx : P.Does x y S)
    (h : ∀ P' a a', P.Extends P' → S P' a a' → Mirrors P' w w' (f a) (g a') R) :
    Mirrors P w w' ((liftM x : TermM σ ε α) >>= f) (liftM y >>= g) R := by
  refine (Mirrors.lift (Q := fun P' a a' w₁ w₁' => (w₁ = w ∧ w₁' = w') ∧ S P' a a') hx
    fun _ _ _ _ hS => ⟨⟨rfl, rfl⟩, hS⟩).bind ?_
  rintro P' a a' _ _ ext ⟨⟨rfl, rfl⟩, hS⟩
  exact h P' a a' ext hS

/-- Actions on states of their own that have the workspaces, and what is made of their outcomes. -/
theorem Mirrors.through {x : TermM σ ε α} {y : TermM σ ε α'} {z : TermM τ δ α} {z' : TermM τ δ α'} {t t' : τ}
    {Q' : Parallel → α → α' → τ → τ → Prop} (part : τ → σ) (put : σ → τ → τ) (finish : Except ε α → TermM τ δ α)
    (finish' : Except ε α' → TermM τ δ α') (hx : Mirrors P (part t) (part t') x y Q)
    (apply : ∀ s, z t s = finish (x (part t) s).1.1 (put (x (part t) s).1.2 t) (x (part t) s).2)
    (apply' : ∀ s, z' t' s = finish' (y (part t') s).1.1 (put (y (part t') s).1.2 t') (y (part t') s).2)
    (ok : ∀ a, finish (.ok a) = Pure.pure a) (ok' : ∀ a, finish' (.ok a) = Pure.pure a)
    (fails : ∀ err t s, ∃ err', finish (.error err) t s = ((.error err', t), s))
    (fails' : ∀ err t s, ∃ err', finish' (.error err) t s = ((.error err', t), s))
    (parts : ∀ t, workspace (part t) = workspace t) (puts : ∀ w t, workspace (put w t) = workspace w)
    (h : ∀ P' a a' w₁ w₁', P.Extends P' → Q P' a a' w₁ w₁' → Q' P' a a' (put w₁ t) (put w₁' t')) :
    Mirrors P t t' z z' Q' := by
  intro work work' a t₁ s₁ run
  rw [apply] at run
  rw [apply']
  rcases outcome : x (part t) P.left.store with ⟨⟨err | a₁, w₁⟩, s₂⟩
  · obtain ⟨err', failed⟩ := fails err (put w₁ t) s₂
    rw [outcome, failed] at run
    cases run
  rw [outcome, ok] at run
  cases run
  rcases hx ((parts t).trans work) ((parts t').trans work') _ _ _ outcome with
    ⟨P', a', w₁', ext, left, right, work₁, work₁', hQ⟩ | ⟨⟨err, failed⟩, empty⟩
  · rw [right, ok']
    exact .inl ⟨P', a', put w₁' t', ext, left, rfl, (puts w₁ t).trans work₁, (puts w₁' t').trans work₁',
      h P' _ _ _ _ ext hQ⟩
  · right
    obtain ⟨err', failed'⟩ := fails' err (put (y (part t') P.right.store).1.2 t') (y (part t') P.right.store).2
    rw [failed, failed']
    exact ⟨⟨err', rfl⟩, by rw [puts]; exact empty⟩

/-- Actions on parts of the states that have the workspaces. -/
theorem Mirrors.within {x : TermM σ ε α} {y : TermM σ ε α'} {part : τ → σ} {put : σ → τ → τ} {fault : ε → δ}
    {t t' : τ} {T : Parallel → α → α' → τ → τ → Prop} (hx : Mirrors P (part t) (part t') x y Q)
    (parts : ∀ t, workspace (part t) = workspace t) (puts : ∀ w t, workspace (put w t) = workspace w)
    (h : ∀ P' a a' w₁ w₁', P.Extends P' → Q P' a a' w₁ w₁' → T P' a a' (put w₁ t) (put w₁' t')) :
    Mirrors P t t' (x.within part put fault) (y.within part put fault) T := by
  have apply : ∀ {α : Type} (z : TermM σ ε α) (t : τ) (s : Store), z.within part put fault t s =
      (((z (part t) s).1.1.mapError fault, put (z (part t) s).1.2 t), (z (part t) s).2) := by
    intro α z t s
    unfold TermM.within
    rcases z (part t) s with ⟨⟨err | a, w⟩, s'⟩
    · rfl
    · rfl
  exact Mirrors.through part put (fun out t s => ((out.mapError fault, t), s))
    (fun out t s => ((out.mapError fault, t), s)) hx (apply x t) (apply y t') (fun _ => rfl) (fun _ => rfl)
    (fun err _ _ => ⟨fault err, rfl⟩) (fun err _ _ => ⟨fault err, rfl⟩) parts puts h

theorem Mirrors.adapt {fault : ε → δ} (hx : Mirrors P w w' x y Q) :
    Mirrors P w w' (ExceptT.adapt fault x : TermM σ δ α) (ExceptT.adapt fault y) Q := by
  have outcome : ∀ {α : Type} (z : TermM σ ε α) w s, (ExceptT.adapt fault z : TermM σ δ α) w s =
      (((z w s).1.1.mapError fault, (z w s).1.2), (z w s).2) := fun _ _ _ => rfl
  intro work work' a w₁ s₁ run
  rcases ran : x w P.left.store with ⟨⟨err | a₁, w₂⟩, s₂⟩
  · rw [outcome, ran] at run
    cases run
  rw [outcome, ran] at run
  cases run
  rw [outcome]
  rcases hx work work' _ _ _ ran with ⟨P', a', w₁', ext, left, right, rest⟩ | ⟨⟨err, failed⟩, empty⟩
  · rw [right]
    exact .inl ⟨P', a', w₁', ext, left, rfl, rest⟩
  · rw [failed]
    exact .inr ⟨⟨fault err, rfl⟩, empty⟩

section
variable {as : List α} {bs : List α'} {S : Parallel → α → α' → Prop}

/-- Actions on the elements of lists that correspond. What holds of the states goes on to hold, and so does what
holds of outcomes. -/
theorem Mirrors.mapM {T : Parallel → β → β' → Prop} {I : Parallel → σ → σ → Prop}
    (later : ∀ P' a b, P.Extends P' → S P a b → S P' a b)
    (lasts : ∀ P₁ P₂ b b', P₁.Extends P₂ → T P₁ b b' → T P₂ b b') (all : List.Forall₂ (S P) as bs) (inv : I P w w')
    (step : ∀ P' a b w₁ w₁', a ∈ as → P.Extends P' → S P' a b → I P' w₁ w₁' →
      Mirrors P' w₁ w₁' (f a) (g b) fun P'' c c' w₂ w₂' => I P'' w₂ w₂' ∧ T P'' c c') :
    Mirrors P w w' (as.mapM f) (bs.mapM g) fun P' cs cs' w₁ w₁' =>
      I P' w₁ w₁' ∧ List.Forall₂ (T P') cs cs' := by
  suffices gen : ∀ P' w₁ w₁', P.Extends P' → I P' w₁ w₁' →
      Mirrors P' w₁ w₁' (as.mapM f) (bs.mapM g) fun P' cs cs' w₁ w₁' =>
        I P' w₁ w₁' ∧ List.Forall₂ (T P') cs cs' from gen P w w' (.refl P) inv
  induction all with
  | nil => exact fun P' w₁ w₁' _ inv => .pure ⟨inv, .nil⟩
  | cons here _ ih =>
      intro P' w₁ w₁' ext inv
      rw [List.mapM_cons, List.mapM_cons]
      refine (step P' _ _ w₁ w₁' List.mem_cons_self ext (later P' _ _ ext here) inv).bind ?_
      rintro P₁ c c' w₂ w₂' ext₁ ⟨inv₁, hc⟩
      refine (ih (fun P' a b w w' ha => step P' a b w w' (List.mem_cons_of_mem _ ha)) P₁ w₂ w₂'
        (ext.trans ext₁) inv₁).bind ?_
      rintro P₂ cs cs' w₃ w₃' ext₂ ⟨inv₂, hcs⟩
      exact .pure ⟨inv₂, .cons (lasts _ _ _ _ ext₂ hc) hcs⟩

theorem Mirrors.foldlM {k : β → α → TermM σ ε β} {k' : β' → α' → TermM σ ε β'}
    {I : Parallel → β → β' → σ → σ → Prop} {b : β} {b' : β'}
    (later : ∀ P' a b, P.Extends P' → S P a b → S P' a b) (all : List.Forall₂ (S P) as bs) (inv : I P b b' w w')
    (step : ∀ P' a a' b b' w₁ w₁', P.Extends P' → S P' a a' → I P' b b' w₁ w₁' →
      Mirrors P' w₁ w₁' (k b a) (k' b' a') I) :
    Mirrors P w w' (as.foldlM k b) (bs.foldlM k' b') I := by
  suffices gen : ∀ P' b b' w₁ w₁', P.Extends P' → I P' b b' w₁ w₁' →
      Mirrors P' w₁ w₁' (as.foldlM k b) (bs.foldlM k' b') I from gen P b b' w w' (.refl P) inv
  induction all with
  | nil => exact fun P' b b' w₁ w₁' _ inv => .pure inv
  | cons here _ ih =>
      intro P' b b' w₁ w₁' ext inv
      rw [List.foldlM_cons, List.foldlM_cons]
      refine (step P' _ _ b b' w₁ w₁' ext (later P' _ _ ext here) inv).bind fun P₁ c c' w₂ w₂' ext₁ inv₁ => ?_
      exact ih P₁ c c' w₂ w₂' (ext.trans ext₁) inv₁

end

end TermM
end OrderedCompletion
