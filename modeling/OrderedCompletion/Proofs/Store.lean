import Mathlib.Data.List.Forall2
import Mathlib.Order.Basic
import OrderedCompletion.Proofs.Terms
import OrderedCompletion.Store.Vars

/-! What the references of a store denote, and what actions leave of it. -/

namespace OrderedCompletion

namespace Store

/-- The arguments of a stored node come before it. -/
def Descends (s : Store) : Prop :=
  ∀ ⦃r : Ref⦄ ⦃f : Head⦄ ⦃args : List Ref⦄, s.node? r = some (.app f args) → ∀ a ∈ args, a < r

/-- Arguments come first, the index finds every node where it is, and what is noted about a reference
is true of its term. -/
structure WellFormed (s : Store) : Prop where
  below : s.Descends
  index : ∀ {node : Node} {r : Ref}, s.refs.find? node = some r ↔ s.node? r = some node
  noted : ∀ {r : Ref} {vs : List Var}, s.varsOf[r]? = some vs →
    r < s.size ∧ vs = (s.term r).vars

/-- A later store has every node of an earlier one at its place. -/
instance : Preorder Store where
  le s s' := ∀ r node, s.node? r = some node → s'.node? r = some node
  le_refl _ _ _ h := h
  le_trans _ _ _ h h' r node hr := h' r node (h r node hr)

variable {s s' : Store} {r q : Ref} {t : Term}

theorem node?_eq_none : s.node? r = none ↔ s.size ≤ r := by
  simp [node?, size]

theorem exists_node (h : r < s.size) : ∃ node, s.node? r = some node := by
  cases hn : s.node? r with
  | none => exact absurd (node?_eq_none.1 hn) (Nat.not_le_of_lt h)
  | some node => exact ⟨node, rfl⟩

theorem lt_size_of_node (h : ∃ node, s.node? r = some node) : r < s.size := by
  obtain ⟨node, hn⟩ := h
  refine Nat.lt_of_not_le fun le => ?_
  rw [node?_eq_none.2 le] at hn
  cases hn

theorem size_le_of_le (h : s ≤ s') : s.size ≤ s'.size := by
  refine Nat.le_of_not_lt fun lt => ?_
  obtain ⟨node, hn⟩ := exists_node lt
  exact Nat.lt_irrefl _ (lt_size_of_node ⟨node, h _ _ hn⟩)

theorem mapShared_eq_map {α β : Type} [DecidableEq α] (f : α → β) (as : List α) :
    mapShared f as = as.map f := by
  -- what is known is known to be a value of `f`
  suffices gen : ∀ known : List (α × β), (∀ a b, known.lookup a = some b → b = f a) →
      mapShared.go f known as = as.map f from gen [] nofun
  induction as with
  | nil => exact fun _ _ => rfl
  | cons a as ih =>
      intro known right
      rw [mapShared.go, List.map_cons]
      split
      · rename_i b found
        rw [ih known right, right a b found]
      · refine congrArg _ (ih _ fun c d found => ?_)
        rw [List.lookup_cons] at found
        split at found
        · rename_i same
          rw [eq_of_beq same]
          exact (Option.some.inj found).symm
        · exact right c d found

theorem Descends.termWithin_eq (below : s.Descends) {n m : Nat} (hn : r < n) (hm : r < m) :
    s.termWithin n r = s.termWithin m r := by
  induction r using Nat.strongRecOn generalizing n m with
  | ind r ih =>
      obtain ⟨n, rfl⟩ := Nat.exists_eq_succ_of_ne_zero (Nat.ne_zero_of_lt hn)
      obtain ⟨m, rfl⟩ := Nat.exists_eq_succ_of_ne_zero (Nat.ne_zero_of_lt hm)
      rw [termWithin, termWithin]
      cases hr : s.node? r with
      | none => rfl
      | some node =>
          cases node with
          | var v => rfl
          | app f args =>
              simp only [Term.app.injEq, true_and, mapShared_eq_map]
              refine List.map_congr_left fun a ha => ?_
              have lt := below hr a ha
              exact ih a lt (Nat.lt_of_lt_of_le lt (Nat.le_of_lt_succ hn))
                (Nat.lt_of_lt_of_le lt (Nat.le_of_lt_succ hm))

theorem Descends.term_eq (below : s.Descends) {n : Nat} (h : r < n) (hr : r < s.size) :
    s.termWithin n r = s.term r :=
  below.termWithin_eq h (Nat.lt_succ_of_lt hr)

theorem Descends.term_var (below : s.Descends) {v : Var} (h : s.node? r = some (.var v)) :
    s.term r = .var v := by
  rw [← below.term_eq (Nat.lt_succ_self r) (lt_size_of_node ⟨_, h⟩), termWithin, h]

theorem Descends.term_app (below : s.Descends) {f : Head} {args : List Ref}
    (h : s.node? r = some (.app f args)) : s.term r = .app f (args.map s.term) := by
  have hr := lt_size_of_node ⟨_, h⟩
  rw [← below.term_eq (Nat.lt_succ_self r) hr, termWithin, h]
  simp only [Term.app.injEq, true_and, mapShared_eq_map]
  refine List.map_congr_left fun a ha => ?_
  have lt := below h a ha
  exact below.term_eq lt (Nat.lt_trans lt hr)

/-- A reference denotes a term if it leads to it. -/
def Denotes (s : Store) (r : Ref) (t : Term) : Prop := r < s.size ∧ s.term r = t

theorem Descends.term_of_le (below : s.Descends) (below' : s'.Descends) (h : s ≤ s')
    (hr : r < s.size) : s'.term r = s.term r := by
  induction r using Nat.strongRecOn with
  | ind r ih =>
      obtain ⟨node, hn⟩ := exists_node hr
      cases node with
      | var v => rw [below.term_var hn, below'.term_var (h _ _ hn)]
      | app f args =>
          rw [below.term_app hn, below'.term_app (h _ _ hn)]
          simp only [Term.app.injEq, true_and]
          refine List.map_congr_left fun a ha => ?_
          have lt := below hn a ha
          exact ih a lt (Nat.lt_trans lt hr)

theorem Denotes.mono (hd : s.Denotes r t) (wf : s.WellFormed) (wf' : s'.WellFormed) (h : s ≤ s') :
    s'.Denotes r t :=
  ⟨Nat.lt_of_lt_of_le hd.1 (size_le_of_le h), (wf.below.term_of_le wf'.below h hd.1).trans hd.2⟩

theorem Denotes.unique {t' : Term} (h : s.Denotes r t) (h' : s.Denotes r t') : t = t' :=
  h.2.symm.trans h'.2

theorem denotes_term (h : r < s.size) : s.Denotes r (s.term r) := ⟨h, rfl⟩

theorem WellFormed.denotes_var (wf : s.WellFormed) {v : Var} (h : s.node? r = some (.var v)) :
    s.Denotes r (.var v) := ⟨lt_size_of_node ⟨_, h⟩, wf.below.term_var h⟩

/-- The references of a list denote the terms of another one. -/
abbrev DenotesAll (s : Store) (rs : List Ref) (ts : List Term) : Prop := List.Forall₂ s.Denotes rs ts

theorem WellFormed.denotesAll_args (wf : s.WellFormed) {f : Head} {args : List Ref}
    (h : s.node? r = some (.app f args)) : s.DenotesAll args (args.map s.term) := by
  refine List.forall₂_map_right_iff.2 (List.forall₂_same.2 fun a ha => ?_)
  exact denotes_term (Nat.lt_trans (wf.below h a ha) (lt_size_of_node ⟨_, h⟩))

theorem DenotesAll.map_term {rs : List Ref} {ts : List Term} (h : s.DenotesAll rs ts) :
    rs.map s.term = ts := by
  induction h with
  | nil => rfl
  | cons hd _ ih => rw [List.map_cons, hd.2, ih]

theorem DenotesAll.mono {rs : List Ref} {ts : List Term} (hd : s.DenotesAll rs ts)
    (wf : s.WellFormed) (wf' : s'.WellFormed) (h : s ≤ s') : s'.DenotesAll rs ts :=
  hd.imp fun _ _ hd => hd.mono wf wf' h

/-- What stands behind a reference to a variable. -/
theorem Denotes.node_var {v : Var} (h : s.Denotes r (.var v)) (wf : s.WellFormed) :
    s.node? r = some (.var v) := by
  obtain ⟨node, hn⟩ := exists_node h.1
  cases node with
  | var w =>
      have same := h.2
      rw [wf.below.term_var hn, Term.var.injEq] at same
      rw [hn, same]
  | app f args =>
      have same := h.2
      rw [wf.below.term_app hn] at same
      cases same

/-- What stands behind a reference to an application. -/
theorem Denotes.node_app {f : Head} {ts : List Term} (h : s.Denotes r (.app f ts))
    (wf : s.WellFormed) : ∃ args, s.node? r = some (.app f args) ∧ s.DenotesAll args ts := by
  obtain ⟨node, hn⟩ := exists_node h.1
  cases node with
  | var w =>
      have same := h.2
      rw [wf.below.term_var hn] at same
      cases same
  | app g args =>
      have same := h.2
      rw [wf.below.term_app hn, Term.app.injEq] at same
      obtain ⟨rfl, rfl⟩ := same
      exact ⟨args, hn, wf.denotesAll_args hn⟩

theorem Denotes.over_full (h : s.Denotes r t) (wf : s.WellFormed) : t.Over .full := by
  obtain ⟨hr, rfl⟩ := h
  induction r using Nat.strongRecOn with
  | ind r ih =>
      obtain ⟨node, hn⟩ := exists_node hr
      cases node with
      | var v =>
          rw [wf.below.term_var hn]
          exact .var v
      | app f args =>
          rw [wf.below.term_app hn]
          refine .app trivial fun t ht => ?_
          obtain ⟨a, ha, rfl⟩ := List.mem_map.1 ht
          have lt := wf.below hn a ha
          exact ih a lt (Nat.lt_trans lt hr)

/-- The depth of a stored term is bounded by its reference. -/
theorem Denotes.depth_le (h : s.Denotes r t) (wf : s.WellFormed) : t.depth ≤ r + 1 := by
  obtain ⟨hr, rfl⟩ := h
  induction r using Nat.strongRecOn with
  | ind r ih =>
      obtain ⟨node, hn⟩ := exists_node hr
      cases node with
      | var v =>
          rw [wf.below.term_var hn]
          exact Nat.le_add_left 1 r
      | app f args =>
          rw [wf.below.term_app hn]
          refine Term.depth_app_le fun t ht => ?_
          obtain ⟨a, ha, rfl⟩ := List.mem_map.1 ht
          have lt := wf.below hn a ha
          exact Nat.le_trans (ih a lt (Nat.lt_trans lt hr)) lt

/-- Every term is stored once. -/
theorem Denotes.inj (h : s.Denotes r t) (h' : s.Denotes q t) (wf : s.WellFormed) : r = q := by
  induction t using Term.induct generalizing r q with
  | var v => exact Option.some.inj ((wf.index.2 (h.node_var wf)).symm.trans (wf.index.2 (h'.node_var wf)))
  | app f ts ih =>
      obtain ⟨rs, hr, hrs⟩ := h.node_app wf
      obtain ⟨qs, hq, hqs⟩ := h'.node_app wf
      have same : rs = qs := by
        clear hr hq h h'
        induction hrs generalizing qs with
        | nil =>
            cases hqs
            rfl
        | cons hd _ ih' =>
            cases hqs with
            | cons hd' hqs =>
                rw [ih _ (by simp) hd hd', ih' (fun a ha => ih a (by simp [ha])) _ hqs]
      subst same
      exact Option.some.inj ((wf.index.2 hr).symm.trans (wf.index.2 hq))
  | missing m => exact absurd (h.over_full wf) Term.not_over_missing

theorem Denotes.eq_iff {t' : Term} (h : s.Denotes r t) (h' : s.Denotes q t') (wf : s.WellFormed) :
    r = q ↔ t = t' := by
  constructor
  · rintro rfl
    exact h.unique h'
  · rintro rfl
    exact h.inj h' wf

/-- What is stored is stored once. -/
theorem term_eq_iff (wf : s.WellFormed) (hr : r < s.size) (hq : q < s.size) : s.term r = s.term q ↔ r = q :=
  ((denotes_term hr).eq_iff (denotes_term hq) wf).symm

/-- From the given store the action leads to a well-formed later one, and the outcome has the property. -/
def Ensures {α : Type} (s : Store) (x : StoreM α) (Q : α → Store → Prop) : Prop :=
  (x s).2.WellFormed ∧ s ≤ (x s).2 ∧ Q (x s).1 (x s).2

section
variable {α β : Type} {x : StoreM α} {f : α → StoreM β} {Q : α → Store → Prop} {R : β → Store → Prop}

theorem Ensures.pure {a : α} (wf : s.WellFormed) (h : Q a s) : s.Ensures (Pure.pure a) Q :=
  ⟨wf, le_refl s, h⟩

theorem Ensures.bind (hx : s.Ensures x Q)
    (hf : ∀ a s', s'.WellFormed → s ≤ s' → Q a s' → s'.Ensures (f a) R) :
    s.Ensures (x >>= f) R := by
  obtain ⟨wf, le, h⟩ := hx
  obtain ⟨wf', le', h'⟩ := hf _ _ wf le h
  exact ⟨wf', le.trans le', h'⟩

theorem Ensures.mono {R : α → Store → Prop} (hx : s.Ensures x Q)
    (h : ∀ a s', s'.WellFormed → s ≤ s' → Q a s' → R a s') : s.Ensures x R :=
  ⟨hx.1, hx.2.1, h _ _ hx.1 hx.2.1 hx.2.2⟩

theorem Ensures.and {Q' : α → Store → Prop} (h : s.Ensures x Q) (h' : s.Ensures x Q') :
    s.Ensures x fun a s' => Q a s' ∧ Q' a s' :=
  ⟨h.1, h.2.1, h.2.2, h'.2.2⟩

theorem Ensures.get (wf : s.WellFormed) : s.Ensures MonadState.get fun a s' => a = s ∧ s' = s :=
  ⟨wf, le_refl s, rfl, rfl⟩

theorem Ensures.map {g : α → β} (hx : s.Ensures x Q)
    (h : ∀ a s', s'.WellFormed → s ≤ s' → Q a s' → R (g a) s') : s.Ensures (g <$> x) R :=
  ⟨hx.1, hx.2.1, h _ _ hx.1 hx.2.1 hx.2.2⟩

end

end Store
end OrderedCompletion
