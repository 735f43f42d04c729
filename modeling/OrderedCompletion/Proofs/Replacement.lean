import OrderedCompletion.Proofs.Interning
import OrderedCompletion.Proofs.Substitution

/-! What is found at the positions of a stored term, put there, listed and searched for belongs to one tree. -/

namespace OrderedCompletion.Store

variable {s s' : Store} {r q u : Ref} {t a : Term} {p : Position} {σ : Subst} {θ : Var → Term}

/-- Terms with the same subtree at a position have the same subterm there. -/
theorem Denotes.subtermAt_congr {t' : Term} {r' : Ref} {p' : Position} (wf : s.WellFormed) (hd : s.Denotes r t)
    (hd' : s.Denotes r' t') (same : t.subtermAt p = t'.subtermAt p') : s.subtermAt r p = s.subtermAt r' p' := by
  ext q
  rw [hd.subtermAt_iff wf, hd'.subtermAt_iff wf, same]

section
variable {ε δ α β : Type} {x : ExceptT ε StoreM α} {e : ε}

/-- A failure ends what comes after it. -/
theorem run_bind_error {f : α → ExceptT ε StoreM β} (failed : x.run s = (.error e, s')) :
    (x >>= f).run s = (.error e, s') := by
  change (match (x.run s).1 with | .ok a => (f a).run | .error e => pure (.error e)) (x.run s).2 = _
  rw [failed]
  rfl

theorem run_adapt_error {g : ε → δ} (failed : x.run s = (.error e, s')) :
    (x.adapt g).run s = (.error (g e), s') := by
  change ((x.run s).1.mapError g, (x.run s).2) = _
  rw [failed]
  rfl

end

/-- Where nothing stands, nothing is replaced, and the whole position is reported. -/
theorem replaceAt_refused (wf : s.WellFormed) (hr : r < s.size) (nothing : s.subtermAt r p = none) :
    (replaceAt r p u).run s = (.error (.invalidPosition p), s) := by
  induction p generalizing r with
  | nil => cases nothing
  | cons i p ih =>
      obtain ⟨node, hnode⟩ := exists_node hr
      rw [replaceAt, run_getThe_bind, hnode]
      cases node with
      | var v => rfl
      | app f args =>
          dsimp only
          cases hi : args[i]? with
          | none => rfl
          | some b =>
              have lt := wf.below hnode b (List.mem_of_getElem? hi)
              have nothing : s.subtermAt b p = none := by
                rw [Option.eq_none_iff_forall_ne_some] at nothing ⊢
                exact fun q at_ => nothing q (subtermAt_cons_eq_some_iff.2 ⟨f, args, b, hnode, hi, at_⟩)
              exact run_bind_error (run_adapt_error (ih (Nat.lt_trans lt hr) nothing))

/-- The positions of applications come in lexicographic order, so that each comes once. -/
theorem appPositionsWithin_sorted (s : Store) (n : Nat) (r : Ref) :
    (s.appPositionsWithin n r).Pairwise fun x y => x.1 < y.1 := by
  induction n generalizing r with
  | zero => exact .nil
  | succ n ih =>
      rw [appPositionsWithin]
      cases s.node? r with
      | none => exact .nil
      | some node =>
          cases node with
          | var v => exact .nil
          | app f args =>
              have indices : args.zipIdx.Pairwise fun x y => x.2 < y.2 := by
                rw [← List.pairwise_map, List.zipIdx_map_snd]
                exact List.pairwise_lt_range'
              dsimp only
              rw [List.pairwise_cons, List.pairwise_flatMap]
              refine ⟨?_, ?_, ?_⟩
              · intro x hx
                simp only [List.mem_flatMap, List.mem_map] at hx
                obtain ⟨_, -, _, -, rfl⟩ := hx
                exact List.nil_lt_cons _ _
              · rintro ⟨b, i⟩ -
                rw [List.pairwise_map]
                exact (ih b).imp fun lt => by simpa using lt
              · refine indices.imp ?_
                rintro ⟨b, i⟩ ⟨c, j⟩ lt x hx y hy
                obtain ⟨_, -, rfl⟩ := List.mem_map.1 hx
                obtain ⟨_, -, rfl⟩ := List.mem_map.1 hy
                exact List.cons_lt_cons_iff.2 (.inl lt)

/-- What is listed is found there and is no variable. -/
theorem mem_appPositions_iff (wf : s.WellFormed) (hr : r < s.size) :
    (p, q) ∈ s.appPositions r ↔ s.subtermAt r p = some q ∧ ∀ v, s.node? q ≠ some (.var v) := by
  have deep : r < s.bound := Nat.lt_succ_of_lt hr
  rw [appPositions, mem_appPositionsWithin wf hr deep]
  refine and_congr_right fun at_ => ?_
  obtain ⟨node, hnode⟩ := exists_node (subtermAt_lt_size wf hr at_)
  cases node with
  | var v => simp [hnode]
  | app f args => simp [hnode]

theorem containsWithin_iff (wf : s.WellFormed) {n : Nat} (hr : r < s.size) (hn : r < n) :
    s.containsWithin n r u = true ↔ ∃ p, s.subtermAt r p = some u := by
  induction n generalizing r with
  | zero => exact absurd hn (Nat.not_lt_zero r)
  | succ n ih =>
      obtain ⟨node, hnode⟩ := exists_node hr
      rw [containsWithin, hnode]
      cases node with
      | var v => simp [subtermAt_var_iff hnode, eq_comm]
      | app f args =>
          have inside : ∀ {b}, b ∈ args → (s.containsWithin n b u = true ↔ ∃ p, s.subtermAt b p = some u) := by
            intro b hb
            have lt := wf.below hnode b hb
            exact ih (Nat.lt_trans lt hr) (Nat.lt_of_lt_of_le lt (Nat.le_of_lt_succ hn))
          simp only [Bool.or_eq_true, decide_eq_true_eq, List.any_eq_true, List.mem_reverse,
            subtermAt_app_iff hnode]
          constructor
          · rintro (rfl | ⟨b, hb, found⟩)
            · exact ⟨[], .inl ⟨rfl, rfl⟩⟩
            · obtain ⟨q, at_⟩ := (inside hb).1 found
              obtain ⟨i, hi⟩ := List.mem_iff_getElem?.1 hb
              exact ⟨i :: q, .inr ⟨i, q, b, rfl, hi, at_⟩⟩
          · rintro ⟨p, ⟨-, rfl⟩ | ⟨i, q, b, -, hi, at_⟩⟩
            · exact .inl rfl
            · have hb := List.mem_of_getElem? hi
              exact .inr ⟨b, hb, (inside hb).2 ⟨q, at_⟩⟩

/-- Puts a term in place and then replaces the variables. -/
def applyToReplaced (σ : Subst) (r : Ref) (p : Position) (u : Ref) : ExceptT TermError StoreM Ref := do
  apply σ (← replaceAt r p u)

/-- Replaces the variables of both terms and then puts one in place. -/
def replaceInApplied (σ : Subst) (r : Ref) (p : Position) (u : Ref) : ExceptT TermError StoreM Ref := do
  let r ← apply σ r
  let u ← apply σ u
  replaceAt r p u

section
variable {b : Term} (wf : s.WellFormed) (hb : s.Binds σ θ) (hd : s.Denotes r t) (hu : s.Denotes u b)
  (at_ : t.subtermAt p = some a)
include wf hb hd hu at_

theorem applyToReplaced_spec : s.Ensures (applyToReplaced σ r p u).run fun out s' =>
    ∃ q, out = .ok q ∧ s'.Denotes q ((Term.replaceAt b t p).subst θ) := by
  refine (replaceAt_spec wf hd hu at_).bindOk fun w s₁ wf₁ le₁ hw => ?_
  exact (apply_spec wf₁ (hb.mono wf wf₁ le₁) hw).liftOk

theorem replaceInApplied_spec : s.Ensures (replaceInApplied σ r p u).run fun out s' =>
    ∃ q, out = .ok q ∧ s'.Denotes q ((Term.replaceAt b t p).subst θ) := by
  refine (apply_spec wf hb hd).liftOk.bindOk fun r' s₁ wf₁ le₁ hr' => ?_
  have hu₁ := hu.mono wf wf₁ le₁
  refine (apply_spec wf₁ (hb.mono wf wf₁ le₁) hu₁).liftOk.bindOk fun u' s₂ wf₂ le₂ hu' => ?_
  rw [Term.replaceAt_subst at_]
  exact replaceAt_spec wf₂ (hr'.mono wf₁ wf₂ le₂) hu' (Term.subtermAt_subst at_)

end

/-- The first action succeeds, and so does the second one with the same reference, whatever enters the store
in between. -/
def Coincide (s : Store) (x y : ExceptT TermError StoreM Ref) : Prop :=
  ∃ out, (x.run s).1 = .ok out ∧ ∀ s', s'.WellFormed → (x.run s).2 ≤ s' → (y.run s').1 = .ok out

/-- Actions that store one tree coincide. -/
theorem coincide_of_denotes {x y : ExceptT TermError StoreM Ref}
    (hx : s.Ensures x.run fun out s' => ∃ q, out = .ok q ∧ s'.Denotes q t)
    (hy : ∀ s', s'.WellFormed → s ≤ s' → s'.Ensures y.run fun out s'' => ∃ q, out = .ok q ∧ s''.Denotes q t) :
    s.Coincide x y := by
  obtain ⟨wf₁, le₁, q, same, hq⟩ := hx
  refine ⟨q, same, fun s' wf' le' => ?_⟩
  obtain ⟨wf₂, le₂, q', same', hq'⟩ := hy s' wf' (le₁.trans le')
  rw [same', hq'.inj ((hq.mono wf₁ wf' le').mono wf' wf₂ le₂) wf₂]

/-- The second term stands at the position of the first one now, and what does not lie on one path with it is
as it was. -/
structure Replaced (s : Store) (r : Ref) (p : Position) (u : Ref) (s' : Store) (out : Ref) : Prop where
  here : s'.subtermAt out p = some u
  apart : ∀ q, ¬ p <+: q → ¬ q <+: p → s'.subtermAt out q = s.subtermAt r q

/-- All that can be done with positions of a term is about the same ones. -/
structure Addressed (s : Store) (r : Ref) : Prop where
  replaces_iff : ∀ p, ∀ u < s.size,
    (∃ out, ((replaceAt r p u).run s).1 = .ok out) ↔ ∃ q, s.subtermAt r p = some q
  replaces : ∀ p, ∀ u < s.size, ∀ out, ((replaceAt r p u).run s).1 = .ok out →
    Replaced s r p u ((replaceAt r p u).run s).2 out
  restores : ∀ p q, s.subtermAt r p = some q → ((replaceAt r p q).run s).1 = .ok r
  listed : ∀ p q, (p, q) ∈ s.appPositions r ↔ s.subtermAt r p = some q ∧ ∀ v, s.node? q ≠ some (.var v)
  sorted : ((s.appPositions r).map (·.1)).Pairwise (· < ·)
  contains : ∀ u, s.contains r u = true ↔ ∃ p, s.subtermAt r p = some u
  commutes : ∀ σ, s.Knows σ → ∀ p q, s.subtermAt r p = some q → ∀ u < s.size,
    s.Coincide (applyToReplaced σ r p u) (replaceInApplied σ r p u) ∧
    s.Coincide (replaceInApplied σ r p u) (applyToReplaced σ r p u)

theorem replaceAt_replaced (wf : s.WellFormed) (hr : r < s.size) (hu : u < s.size)
    (at_ : s.subtermAt r p = some q) :
    ∃ out, ((replaceAt r p u).run s).1 = .ok out ∧ Replaced s r p u ((replaceAt r p u).run s).2 out := by
  have hd := denotes_term hr
  obtain ⟨a, inTree, -⟩ := (hd.subtermAt_iff wf).1 at_
  obtain ⟨wf₁, le₁, out, same, hout⟩ := replaceAt_spec wf hd (denotes_term hu) inTree
  have hu₁ := (denotes_term hu).mono wf wf₁ le₁
  refine ⟨out, same, ?_, fun p' apart apart' => ?_⟩
  · have placed := Term.subtermAt_replaceAt (u := s.term u) (q := []) inTree
    rw [List.append_nil, Term.subtermAt_nil] at placed
    exact (hout.subtermAt_iff wf₁).2 ⟨_, placed, hu₁⟩
  · rw [← subtermAt_of_le wf.below le₁ hr]
    exact hout.subtermAt_congr wf₁ (hd.mono wf wf₁ le₁) (Term.subtermAt_replaceAt_of_apart apart apart')

/-- A replacement succeeds at positions only. -/
theorem subtermAt_of_replaceAt {out : Ref} (wf : s.WellFormed) (hr : r < s.size)
    (done : ((replaceAt r p u).run s).1 = .ok out) : ∃ q, s.subtermAt r p = some q := by
  cases at_ : s.subtermAt r p with
  | some q => exact ⟨q, rfl⟩
  | none =>
      rw [replaceAt_refused wf hr at_] at done
      cases done

/-- The subterm that is there already is put in place without a change. -/
theorem replaceAt_self (wf : s.WellFormed) (hr : r < s.size) (at_ : s.subtermAt r p = some q) :
    ((replaceAt r p q).run s).1 = .ok r := by
  have hd := denotes_term hr
  obtain ⟨a, inTree, hq⟩ := (hd.subtermAt_iff wf).1 at_
  obtain ⟨wf₁, le₁, out, same, hout⟩ := replaceAt_spec wf hd hq inTree
  rw [Term.replaceAt_self inTree] at hout
  rw [same, hout.inj (hd.mono wf wf₁ le₁) wf₁]

theorem apply_commutes (wf : s.WellFormed) (known : s.Knows σ) (hr : r < s.size) (hu : u < s.size)
    (at_ : s.subtermAt r p = some q) :
    s.Coincide (applyToReplaced σ r p u) (replaceInApplied σ r p u) ∧
    s.Coincide (replaceInApplied σ r p u) (applyToReplaced σ r p u) := by
  have hd := denotes_term hr
  have hu := denotes_term hu
  obtain ⟨a, inTree, -⟩ := (hd.subtermAt_iff wf).1 at_
  constructor
  · apply coincide_of_denotes (applyToReplaced_spec wf known.binds hd hu inTree)
    intro s' wf' le
    exact replaceInApplied_spec wf' (known.binds.mono wf wf' le) (hd.mono wf wf' le) (hu.mono wf wf' le) inTree
  · apply coincide_of_denotes (replaceInApplied_spec wf known.binds hd hu inTree)
    intro s' wf' le
    exact applyToReplaced_spec wf' (known.binds.mono wf wf' le) (hd.mono wf wf' le) (hu.mono wf wf' le) inTree

/-- Lookup, replacement, enumeration and search agree on the positions of a stored term, and replacing a
subterm commutes with replacing variables. -/
theorem positions_agree (wf : s.WellFormed) (hr : r < s.size) : s.Addressed r where
  replaces_iff := by
    intro p u hu
    constructor
    · rintro ⟨out, done⟩
      exact subtermAt_of_replaceAt wf hr done
    · rintro ⟨q, at_⟩
      obtain ⟨out, done, -⟩ := replaceAt_replaced wf hr hu at_
      exact ⟨out, done⟩
  replaces := by
    intro p u hu out done
    obtain ⟨q, at_⟩ := subtermAt_of_replaceAt wf hr done
    obtain ⟨out', done', replaced⟩ := replaceAt_replaced wf hr hu at_
    rw [done, Except.ok.injEq] at done'
    exact done' ▸ replaced
  restores := fun p q at_ => replaceAt_self wf hr at_
  listed := fun p q => mem_appPositions_iff wf hr
  sorted := List.pairwise_map.2 (appPositionsWithin_sorted s s.bound r)
  contains := fun u => containsWithin_iff wf hr (Nat.lt_succ_of_lt hr)
  commutes := fun σ known p q at_ u hu => apply_commutes wf known hr hu at_

/-- An application to a variable and twice to an application to that variable. -/
def nested : Usage :=
  ((({} : Usage).after (.var 7)).after (.app (.symbol ⟨0⟩) [0])).after (.app (.symbol ⟨1⟩) [0, 1, 1])

theorem positions_agree_nested :
    nested.store.WellFormed ∧ 2 < nested.store.size ∧
    nested.store.appPositions 2 = [([], 2), ([1], 1), ([2], 1)] ∧
    nested.store.subtermAt 2 [2, 0] = some 0 ∧ nested.store.Addressed 2 := by
  have made : Usage.Reaches {} (({} : Usage).after (.var 7)) := Usage.Reaches.after .refl (by decide)
  have used : Usage.Reaches {} nested := (made.after (by decide)).after (by decide)
  have wf := (Usage.new_sound.reaches used).1.faithful.toWellFormed
  have known : 2 < nested.store.size := by decide
  exact ⟨wf, known, by decide, by decide, positions_agree wf known⟩

end OrderedCompletion.Store
