import OrderedCompletion.Proofs.Shrinking

/-! When the Knuth-Bendix order is transitive, and what it is like on ground terms. -/

namespace OrderedCompletion

namespace Term

variable {s t : Term} {p : Position}

theorem size_le_of_subtermAt (at_ : s.subtermAt p = some t) : t.size ≤ s.size := by
  induction p generalizing s with
  | nil =>
      rw [subtermAt_nil, Option.some.injEq] at at_
      exact at_ ▸ le_rfl
  | cons i p ih =>
      obtain ⟨f, args, a, rfl, ha, inside⟩ := subtermAt_cons_eq_some at_
      exact (ih inside).trans (size_lt_of_mem (List.mem_of_getElem? ha)).le

theorem size_lt_of_subtermAt (below : p ≠ []) (at_ : s.subtermAt p = some t) : t.size < s.size := by
  cases p with
  | nil => exact absurd rfl below
  | cons i p =>
      obtain ⟨f, args, a, rfl, ha, inside⟩ := subtermAt_cons_eq_some at_
      exact (size_le_of_subtermAt inside).trans_lt (size_lt_of_mem (List.mem_of_getElem? ha))

theorem covers_of_mem {f : Head} {args : List Term} (h : t ∈ args) : (app f args).Covers t := by
  obtain ⟨pre, post, rfl⟩ := List.append_of_mem h
  intro v
  simp
  omega

theorem covers_of_subtermAt (at_ : s.subtermAt p = some t) : s.Covers t := by
  induction p generalizing s with
  | nil =>
      rw [subtermAt_nil, Option.some.injEq] at at_
      exact at_ ▸ fun _ => le_rfl
  | cons i p ih =>
      obtain ⟨f, args, a, rfl, ha, inside⟩ := subtermAt_cons_eq_some at_
      exact (covers_of_mem (List.mem_of_getElem? ha)).trans (ih inside)

/-- A term over a signature whose node count does not wrap around. -/
structure Counted (sig : Signature) (t : Term) : Prop where
  inSig : t.Over sig
  small : t.size < 2 ^ 32

theorem Counted.arg {sig : Signature} {f : Head} {args : List Term} (h : (app f args).Counted sig)
    (ha : t ∈ args) : t.Counted sig :=
  ⟨(over_app_iff.1 h.inSig).2 t ha, (size_lt_of_mem ha).trans h.small⟩

theorem Counted.full {sig : Signature} (h : t.Counted sig) : t.Counted .full := ⟨h.inSig.full, h.small⟩

end Term

/-- A symbol is equal to itself, whether it has a name or not. -/
theorem Precedence.reflexive (symbols : SymbolTable) (p : Precedence) :
    HeadComparison.Reflexive (compare symbols p) .full := by
  intro f n _
  cases f with
  | symbol f => simp [compare]
  | frozen v => simp [compare]

/-- A comparison with a variable goes no further. -/
theorem Kbo.Compares.of_var {cmp : HeadComparison} {s a b : Term} {v : Var}
    (h : Compares cmp s (.var v) a b) : a = s ∧ b = .var v := by
  generalize last : Term.var v = t at h
  cases h with
  | here => exact ⟨rfl, rfl⟩
  | inside _ _ _ _ => cases last

namespace Order

variable {symbols : SymbolTable} {ranked : List Symbol} {s t u : Term}

theorem kbo_test_iff (hs : s.Counted .full) (ht : t.Counted .full) :
    (kbo symbols ranked).test s t = true ↔ s.Covers t ∧
      Kbo.Gt (Precedence.compare symbols (.ranking ranked)) (fun _ _ => True) s t :=
  Kbo.test_spec (Precedence.reflexive symbols _) hs.inSig ht.inSig hs.small ht.small

/-- From one term by way of a second one to a third one: the order says so of the first and the third one
if and only if their comparison does not end at a variable that the other side lacks. -/
theorem kbo_trans (hs : s.Counted (.interned symbols)) (ht : t.Counted (.interned symbols))
    (hu : u.Counted (.interned symbols)) (first : (kbo symbols ranked).test s t = true)
    (second : (kbo symbols ranked).test t u = true) :
    (kbo symbols ranked).test s u = true ↔ ∀ a v,
      Kbo.Compares (Precedence.compare symbols (.ranking ranked)) s u a (.var v) → v ∈ a.vars := by
  have lawful := Precedence.lawful symbols ranked
  rw [kbo_test_iff hs.full ht.full] at first
  rw [kbo_test_iff ht.full hu.full] at second
  rw [kbo_test_iff hs.full hu.full]
  constructor
  · rintro ⟨-, down⟩ a v inner
    cases down.compares lawful.reflexive hs.inSig inner with
    | var hv => exact hv
  · intro ends
    exact ⟨first.1.trans second.1,
      first.2.trans_of_compares lawful hs.inSig ht.inSig hu.inSig second.2 ends⟩

theorem kbo_trans_fork :
    (kbo fiveNames []).test (fork (high (.var 0)) (.var 1)) (fork (low (.var 0)) (.var 1)) = true ∧
    (kbo fiveNames []).test (fork (low (.var 0)) (.var 1)) (fork (.var 0) (low (.var 1))) = true ∧
    (kbo fiveNames []).test (fork (high (.var 0)) (.var 1)) (fork (.var 0) (low (.var 1))) = true := by
  have answers : (kbo fiveNames []).test (fork (high (.var 0)) (.var 1)) (fork (low (.var 0)) (.var 1)) =
        true ∧
      (kbo fiveNames []).test (fork (low (.var 0)) (.var 1)) (fork (.var 0) (low (.var 1))) = true := by
    decide +kernel
  obtain ⟨first, second⟩ := answers
  refine ⟨first, second, (kbo_trans ⟨fork_over (high_over (.var 0)) (.var 1), by decide⟩
    ⟨fork_over (low_over (.var 0)) (.var 1), by decide⟩ ⟨fork_over (.var 0) (low_over (.var 1)), by decide⟩
    first second).2 ?_⟩
  -- the terms are compared by their first arguments, and the second of these is a variable
  intro a v h
  generalize left : fork (high (.var 0)) (.var 1) = x, right : fork (.var 0) (low (.var 1)) = y at h
  generalize last : Term.var v = z at h
  cases h with
  | here =>
      subst last
      cases right
  | @inside f g pre post post' c d _ _ _ _ _ rest =>
      obtain ⟨-, args⟩ := Term.app.inj left
      obtain ⟨-, args'⟩ := Term.app.inj right
      cases pre with
      | nil =>
          obtain ⟨rfl, -⟩ := List.cons.inj args
          obtain ⟨rfl, -⟩ := List.cons.inj args'
          obtain ⟨rfl, same⟩ := rest.of_var
          cases last.trans same
          decide
      | cons e pre =>
          obtain ⟨rfl, -⟩ := List.cons.inj args
          exact absurd (List.cons.inj args').1 (by decide)

/-- The second term is compared with the first one by heads and with the third one by a variable; the first
and the third one are then compared at a variable that the first one lacks. -/
theorem kbo_intransitive :
    (kbo fiveNames []).test (fork (high (.var 1)) (.var 0)) (fork (low (.var 0)) (.var 1)) = true ∧
    (kbo fiveNames []).test (fork (low (.var 0)) (.var 1)) (fork (.var 0) (low (.var 1))) = true ∧
    (kbo fiveNames []).test (fork (high (.var 1)) (.var 0)) (fork (.var 0) (low (.var 1))) = false ∧
    (kbo fiveNames []).test (fork (.var 0) (low (.var 1))) (fork (high (.var 1)) (.var 0)) = false := by
  decide +kernel

section
variable (symbols ranked)

/-- On ground terms the order goes by sizes and heads alone. -/
theorem kbo_test_ground (hs : s.Counted (.interned symbols)) (ht : t.Counted (.interned symbols))
    (ground : t.IsGround) : (kbo symbols ranked).test s t = true ↔
      Kbo.Gt (Precedence.compare symbols (.ranking ranked)) Term.Covers s t := by
  rw [kbo_test_iff hs.full ht.full]
  exact Kbo.gt_iff_of_ground (Precedence.lawful symbols ranked) hs.inSig ground

/-- In every store with right node counts the order answers the same. -/
theorem kbo_answers {store : Store} {r q : Ref} (wf : store.WellFormed) (counted : store.Exact)
    (hr : store.Denotes r s) (hq : store.Denotes q t) (hs : s.Counted .full) (ht : t.Counted .full) :
    ((kbo symbols ranked).greater r q store).1 = (kbo symbols ranked).test s t := by
  have refl := Precedence.reflexive symbols (.ranking ranked)
  have answer := (Kbo.answers_of_reflexive refl wf counted hr hq hs.inSig).2.2
  rw [Bool.eq_iff_iff, kbo_test_iff hs ht]
  exact answer

/-- On ground terms the Knuth-Bendix order is irreflexive, transitive and well-founded, and of two different
ones over the symbols of a table one is greater. On all terms it is monotone, a term is greater than every
other one inside it, and the answers depend on the terms only. -/
theorem kbo_ground_total :
    (∀ s : Term, s.Counted (.interned symbols) → s.IsGround → (kbo symbols ranked).test s s = false) ∧
    (∀ s t u : Term, s.Counted (.interned symbols) → t.Counted (.interned symbols) →
      u.Counted (.interned symbols) → s.IsGround → t.IsGround → u.IsGround →
      (kbo symbols ranked).test s t = true → (kbo symbols ranked).test t u = true →
      (kbo symbols ranked).test s u = true) ∧
    (WellFounded fun t s : Term => (t.Counted (.interned symbols) ∧ t.IsGround) ∧
      (s.Counted (.interned symbols) ∧ s.IsGround) ∧ (kbo symbols ranked).test s t = true) ∧
    (∀ s t : Term, s.Counted (.named symbols) → t.Counted (.named symbols) → s.IsGround → t.IsGround →
      s ≠ t → (kbo symbols ranked).test s t = true ∨ (kbo symbols ranked).test t s = true) ∧
    (∀ (f : Head) (pre post : List Term) (s t : Term), (Term.app f (pre ++ s :: post)).Counted .full →
      (Term.app f (pre ++ t :: post)).Counted .full → (kbo symbols ranked).test s t = true →
      (kbo symbols ranked).test (.app f (pre ++ s :: post)) (.app f (pre ++ t :: post)) = true) ∧
    (∀ (s t : Term) (p : Position), s.Counted .full → p ≠ [] → s.subtermAt p = some t →
      (kbo symbols ranked).test s t = true) ∧
    (∀ (store : Store) (r q : Ref) (s t : Term), store.WellFormed → store.Exact → store.Denotes r s →
      store.Denotes q t → s.Counted .full → t.Counted .full →
      ((kbo symbols ranked).greater r q store).1 = (kbo symbols ranked).test s t) := by
  have lawful := Precedence.lawful symbols ranked
  have refl := Precedence.reflexive symbols (.ranking ranked)
  refine ⟨?_, ?_, ?_, ?_, ?_, ?_, ?_⟩
  · intro s hs ground
    rw [← Bool.not_eq_true, kbo_test_ground symbols ranked hs hs ground]
    exact Kbo.Gt.irrefl lawful.reflexive hs.inSig
  · intro s t u hs ht hu _ groundT groundU first second
    rw [kbo_test_ground symbols ranked hs ht groundT] at first
    rw [kbo_test_ground symbols ranked ht hu groundU] at second
    rw [kbo_test_ground symbols ranked hs hu groundU]
    exact first.trans lawful hs.inSig ht.inSig hu.inSig second
  · refine Subrelation.wf ?_ (Kbo.wf_less lawful)
    rintro t s ⟨⟨ht, groundT⟩, ⟨hs, -⟩, down⟩
    exact ⟨ht.inSig, hs.inSig, (kbo_test_ground symbols ranked hs ht groundT).1 down⟩
  · intro s t hs ht groundS groundT differ
    have le : ∀ f n, Signature.named symbols f n → Signature.interned symbols f n :=
      fun _ _ => Signature.interned_of_named
    have hs' : s.Counted (.interned symbols) := ⟨hs.inSig.mono le, hs.small⟩
    have ht' : t.Counted (.interned symbols) := ⟨ht.inSig.mono le, ht.small⟩
    rw [kbo_test_ground symbols ranked hs' ht' groundT, kbo_test_ground symbols ranked ht' hs' groundS]
    exact Kbo.total (lawful.mono le) (Precedence.total symbols ranked) hs.inSig ht.inSig groundS groundT
      differ
  · intro f pre post s t hs ht down
    have hs' : s.Counted .full := hs.arg (by simp)
    have ht' : t.Counted .full := ht.arg (by simp)
    obtain ⟨covered, down⟩ := (kbo_test_iff hs' ht').1 down
    exact (kbo_test_iff hs ht).2 ⟨covered.arg, down.arg refl (Term.over_app_iff.1 hs.inSig).1 trivial⟩
  · intro s t p hs below at_
    have ht : t.Counted .full := ⟨hs.inSig.subtermAt at_, (Term.size_le_of_subtermAt at_).trans_lt hs.small⟩
    have covered := Term.covers_of_subtermAt at_
    rw [kbo_test_iff hs ht]
    exact ⟨covered, Kbo.gt_of_size_lt hs.inSig ht.inSig covered (Term.size_lt_of_subtermAt below at_)⟩
  · intro store r q s t wf counted hr hq hs ht
    exact kbo_answers symbols ranked wf counted hr hq hs ht

end
end Order
end OrderedCompletion
