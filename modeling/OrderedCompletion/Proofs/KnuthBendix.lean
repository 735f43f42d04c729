import Mathlib.Algebra.GroupWithZero.Nat
import Mathlib.Algebra.Order.BigOperators.Group.Multiset
import Mathlib.Algebra.Order.Group.Nat
import Mathlib.Data.Multiset.Bind
import OrderedCompletion.Proofs.Gauge
import OrderedCompletion.Proofs.Lexicographic

/-! The Knuth-Bendix order on terms, in which the variable condition is asked of all terms that are
compared, and the weaker relation that only never lets a term grow. -/

namespace OrderedCompletion

namespace Term

mutual
/-- The number of nodes. -/
def size : Term → Nat
  | .var _ => 1
  | .app _ args => sizeList args + 1
  | .missing _ => 1

def sizeList : List Term → Nat
  | [] => 0
  | t :: ts => size t + sizeList ts
end

mutual
/-- The variables from left to right, as often as they occur. -/
def occurrences : Term → List Var
  | .var v => [v]
  | .app _ args => occurrencesList args
  | .missing _ => []

def occurrencesList : List Term → List Var
  | [] => []
  | t :: ts => occurrences t ++ occurrencesList ts
end

/-- Every variable occurs in the first term at least as often as in the second. -/
def Covers (s t : Term) : Prop := ∀ v, t.occurrences.count v ≤ s.occurrences.count v

section
variable {θ : Var → Term} {f : Head} {args pre post : List Term} {s t u : Term} {v : Var}

theorem sizeList_eq_sum : sizeList args = (args.map size).sum := by
  induction args with
  | nil => rfl
  | cons t ts ih => rw [sizeList, ih, List.map_cons, List.sum_cons]

theorem occurrencesList_eq_flatMap : occurrencesList args = args.flatMap occurrences := by
  induction args with
  | nil => rfl
  | cons t ts ih => rw [occurrencesList, ih, List.flatMap_cons]

@[simp] theorem size_var : (var v).size = 1 := rfl

@[simp] theorem size_app : (app f args).size = (args.map size).sum + 1 := by
  rw [size, sizeList_eq_sum]

@[simp] theorem occurrences_var : (var v).occurrences = [v] := rfl

@[simp] theorem occurrences_app : (app f args).occurrences = args.flatMap occurrences := by
  rw [occurrences, occurrencesList_eq_flatMap]

theorem size_pos : 0 < t.size := by
  cases t with
  | var v => exact Nat.one_pos
  | app f args => exact Nat.succ_pos _
  | missing r => exact Nat.one_pos

theorem size_lt_of_mem (h : t ∈ args) : t.size < (app f args).size := by
  rw [size_app]
  exact Nat.lt_succ_of_le (List.le_sum_of_mem (List.mem_map_of_mem h))

theorem mem_occurrences : v ∈ t.occurrences ↔ v ∈ t.vars := by
  induction t using Term.induct with
  | var w => simp
  | missing r => simp [occurrences]
  | app f args ih =>
      rw [occurrences_app, mem_vars_app, List.mem_flatMap]
      exact exists_congr fun a => and_congr_right fun ha => ih a ha

theorem occurrences_subst :
    (t.subst θ).occurrences = t.occurrences.flatMap fun v => (θ v).occurrences := by
  induction t using Term.induct with
  | var w => simp
  | missing r => rfl
  | app f args ih =>
      rw [subst_app, occurrences_app, occurrences_app, List.flatMap_map, List.flatMap_assoc]
      exact List.flatMap_congr ih

/-- A substitution adds to the size what it puts in for each occurrence of a variable. -/
theorem size_subst :
    (t.subst θ).size = t.size + (t.occurrences.map fun v => (θ v).size - 1).sum := by
  induction t using Term.induct with
  | var w =>
      have := (θ w).size_pos
      simp
      omega
  | missing r => rfl
  | app f args ih =>
      rw [subst_app, size_app, size_app, occurrences_app, List.map_map]
      induction args with
      | nil => rfl
      | cons a args ih' =>
          have head := ih a List.mem_cons_self
          have tail := ih' fun b hb => ih b (List.mem_cons_of_mem _ hb)
          simp only [List.map_cons, List.sum_cons, List.flatMap_cons, List.map_append, List.sum_append,
            Function.comp_apply] at tail ⊢
          omega

theorem size_le_size_subst : t.size ≤ (t.subst θ).size := by
  rw [size_subst]
  exact Nat.le_add_right _ _

theorem covers_iff : s.Covers t ↔ (t.occurrences : Multiset Var) ≤ s.occurrences := by
  simp [Covers, Multiset.le_iff_count]

theorem Covers.trans (h : s.Covers t) (h' : t.Covers u) : s.Covers u := fun v => (h' v).trans (h v)

theorem Covers.mem_vars (h : s.Covers t) (hv : v ∈ t.vars) : v ∈ s.vars := by
  rw [← mem_occurrences] at hv ⊢
  exact List.count_pos_iff.1 ((List.count_pos_iff.2 hv).trans_le (h v))

theorem covers_var (h : v ∈ s.vars) : s.Covers (.var v) := by
  rw [covers_iff]
  exact Multiset.singleton_le.2 (mem_occurrences.2 h)

theorem IsGround.covers (h : t.IsGround) : s.Covers t := by
  intro v
  have none : v ∉ t.occurrences := by
    rw [mem_occurrences, show t.vars = [] from h]
    exact List.not_mem_nil
  simp [List.count_eq_zero_of_not_mem none]

theorem Covers.subst (h : s.Covers t) : (s.subst θ).Covers (t.subst θ) := by
  rw [covers_iff] at h ⊢
  obtain ⟨rest, split⟩ := Multiset.le_iff_exists_add.1 h
  simp only [occurrences_subst, ← Multiset.coe_bind, split, Multiset.add_bind]
  exact Multiset.le_add_right _ _

theorem Covers.arg (h : s.Covers t) : (app f (pre ++ s :: post)).Covers (.app f (pre ++ t :: post)) := by
  intro v
  have := h v
  simp
  omega

/-- A term that covers another one gains at least as much by a substitution. -/
theorem Covers.size_subst_le (h : s.Covers t) :
    (t.subst θ).size + s.size ≤ (s.subst θ).size + t.size := by
  obtain ⟨rest, split⟩ := Multiset.le_iff_exists_add.1 (covers_iff.1 h)
  have gain : (t.occurrences.map fun v => (θ v).size - 1).sum ≤
      (s.occurrences.map fun v => (θ v).size - 1).sum := by
    rw [← Multiset.sum_coe, ← Multiset.sum_coe, ← Multiset.map_coe, ← Multiset.map_coe, split,
      Multiset.map_add, Multiset.sum_add]
    exact Nat.le_add_right _ _
  rw [size_subst, size_subst]
  omega

theorem Covers.size_subst_mono (h : s.Covers t) (le : t.size ≤ s.size) :
    (t.subst θ).size ≤ (s.subst θ).size := by
  have := h.size_subst_le (θ := θ)
  omega

theorem size_arg_mono (le : t.size ≤ s.size) :
    (app f (pre ++ t :: post)).size ≤ (app f (pre ++ s :: post)).size := by
  simp only [size_app, List.map_append, List.map_cons, List.sum_append, List.sum_cons]
  omega

end
end Term

/-- Terms that are replaced by ones that they cover and that are no larger never grow. -/
def Gauge.shrinking (sig : Signature) : Gauge where
  sig := sig
  gt := fun s t => s.Covers t ∧ t.size ≤ s.size
  strict := False
  distinct := False
  trans := fun _ _ _ h h' => ⟨h.1.trans h'.1, h'.2.trans h.2⟩
  subst := fun _ _ _ h => ⟨h.1.subst, h.1.size_subst_mono h.2⟩
  arg := fun _ _ h => ⟨h.1.arg, Term.size_arg_mono h.2⟩
  irrefl := fun no => no.elim

namespace Kbo

/-- The larger term is greater; of two equally large ones the one with the greater head, and with equal
heads the one with the greater argument where they first differ. Something else may be asked of every two
applications that are compared. -/
inductive Gt (cmp : HeadComparison) (ok : Term → Term → Prop) : Term → Term → Prop
  | larger {f g : Head} {ss ts : List Term} : ok (.app f ss) (.app g ts) →
      (Term.app g ts).size < (Term.app f ss).size → Gt cmp ok (.app f ss) (.app g ts)
  | head {f g : Head} {ss ts : List Term} : ok (.app f ss) (.app g ts) →
      (Term.app g ts).size = (Term.app f ss).size → cmp f ss.length g ts.length = some .gt →
      Gt cmp ok (.app f ss) (.app g ts)
  | lex {f g : Head} {pre post post' : List Term} {a b : Term} :
      ok (.app f (pre ++ a :: post)) (.app g (pre ++ b :: post')) →
      (Term.app g (pre ++ b :: post')).size = (Term.app f (pre ++ a :: post)).size →
      cmp f (pre ++ a :: post).length g (pre ++ b :: post').length = some .eq → Gt cmp ok a b →
      Gt cmp ok (.app f (pre ++ a :: post)) (.app g (pre ++ b :: post'))
  | var {f : Head} {ss : List Term} {v : Var} : v ∈ (Term.app f ss).vars → Gt cmp ok (.app f ss) (.var v)

/-- To compare two terms is to compare, in the end, two others: they are themselves, or arguments of equally
large terms with equal heads where these first differ, or what it takes to compare those. -/
inductive Compares (cmp : HeadComparison) : Term → Term → Term → Term → Prop
  | here {s t : Term} : Compares cmp s t s t
  | inside {f g : Head} {pre post post' : List Term} {a b x y : Term} :
      (Term.app g (pre ++ b :: post')).size = (Term.app f (pre ++ a :: post)).size →
      cmp f (pre ++ a :: post).length g (pre ++ b :: post').length = some .eq → a ≠ b →
      Compares cmp a b x y →
      Compares cmp (.app f (pre ++ a :: post)) (.app g (pre ++ b :: post')) x y

section
variable {cmp : HeadComparison} {sig : Signature} {ok ok' : Term → Term → Prop} {s t u : Term}
variable {θ : Var → Term} {f g : Head} {ss ts pre post : List Term} {v : Var}

theorem not_var_gt : ¬ Gt cmp ok (.var v) t := nofun

theorem gt_var_iff : Gt cmp ok (.app f ss) (.var v) ↔ v ∈ (Term.app f ss).vars := by
  constructor
  · intro h
    cases h with
    | var hv => exact hv
  · exact .var

theorem gt_app_iff : Gt cmp ok (.app f ss) (.app g ts) ↔ ok (.app f ss) (.app g ts) ∧
    ((Term.app g ts).size < (Term.app f ss).size ∨
      (Term.app g ts).size = (Term.app f ss).size ∧ Beats cmp (Gt cmp ok) f ss g ts) := by
  constructor
  · intro h
    cases h with
    | larger covered less => exact ⟨covered, .inl less⟩
    | head covered same greater => exact ⟨covered, .inr ⟨same, .inl greater⟩⟩
    | lex covered same equal down =>
        exact ⟨covered, .inr ⟨same, .inr ⟨equal, _, _, _, _, _, rfl, rfl, down⟩⟩⟩
  · rintro ⟨covered, less | ⟨same, greater | ⟨equal, pre, a, b, post, post', rfl, rfl, down⟩⟩⟩
    · exact .larger covered less
    · exact .head covered same greater
    · exact .lex covered same equal down

theorem gt_of_beats (covered : ok (.app f ss) (.app g ts)) (le : (Term.app g ts).size ≤ (Term.app f ss).size)
    (beats : Beats cmp (Gt cmp ok) f ss g ts) : Gt cmp ok (.app f ss) (.app g ts) := by
  rw [gt_app_iff]
  refine ⟨covered, ?_⟩
  rcases Nat.lt_or_eq_of_le le with less | same
  · exact .inl less
  · exact .inr ⟨same, beats⟩

theorem Gt.irrefl (refl : cmp.Reflexive sig) (hs : s.Over sig) : ¬ Gt cmp ok s s := by
  induction s using Term.induct with
  | var v => exact not_var_gt
  | missing r => nofun
  | app f ss ih =>
      obtain ⟨known, inSig⟩ := Term.over_app_iff.1 hs
      intro h
      obtain ⟨-, less | ⟨-, beats⟩⟩ := gt_app_iff.1 h
      · exact Nat.lt_irrefl _ less
      · exact beats.irrefl (refl f _ known) fun a ha => ih a ha (inSig a ha)

/-- A term is at least as large as what it is greater than. -/
theorem Gt.size_le (h : Gt cmp ok s t) : t.size ≤ s.size := by
  cases h with
  | larger _ less => exact less.le
  | head _ same _ => exact same.le
  | lex _ same _ _ => exact same.le
  | var _ => exact Term.size_pos

theorem Gt.covers (h : Gt cmp Term.Covers s t) : s.Covers t := by
  cases h with
  | larger covered _ => exact covered
  | head covered _ _ => exact covered
  | lex covered _ _ _ => exact covered
  | var hv => exact Term.covers_var hv

/-- What holds of all terms that are compared may be asked of them. -/
theorem Gt.of_compares (lawful : cmp.Lawful sig) (hs : s.Over sig) (h : Gt cmp ok s t)
    (asked : ∀ x y, Compares cmp s t x y → ok' x y) : Gt cmp ok' s t := by
  induction h with
  | larger _ less => exact .larger (asked _ _ .here) less
  | head _ same greater => exact .head (asked _ _ .here) same greater
  | lex _ same equal down ih =>
      have inSig := (Term.over_app_iff.1 hs).2 _ (List.mem_append_right _ List.mem_cons_self)
      refine .lex (asked _ _ .here) same equal (ih inSig fun x y inside => ?_)
      apply asked
      apply Compares.inside same equal _ inside
      rintro rfl
      exact down.irrefl lawful.reflexive inSig
  | var hv => exact .var hv

/-- Of ground terms the variable condition need not be asked. -/
theorem Gt.of_ground (h : Gt cmp ok s t) (ground : t.IsGround) : Gt cmp Term.Covers s t := by
  induction h with
  | larger _ less => exact .larger ground.covers less
  | head _ same greater => exact .head ground.covers same greater
  | lex _ same equal _ ih => exact .lex ground.covers same equal (ih (ground.arg (by simp)))
  | var hv => exact .var hv

/-- On ground terms the variable condition always holds. -/
theorem gt_iff_of_ground (lawful : cmp.Lawful sig) (hs : s.Over sig) (ground : t.IsGround) :
    s.Covers t ∧ Gt cmp (fun _ _ => True) s t ↔ Gt cmp Term.Covers s t := by
  constructor
  · exact fun h => h.2.of_ground ground
  · exact fun h => ⟨h.covers, h.of_compares lawful hs fun _ _ _ => trivial⟩

/-- The order is closed under substitution. Where the instance of the greater term is the larger one, that
decides; otherwise what decided the comparison of the terms does. -/
theorem Gt.subst (h : Gt cmp Term.Covers s t) (hθ : ∀ v ∈ s.vars, (θ v).Over sig) :
    Gt cmp Term.Covers (s.subst θ) (t.subst θ) := by
  induction h with
  | @larger f g ss ts covered less =>
      have gain := covered.size_subst_le (θ := θ)
      have covered' := covered.subst (θ := θ)
      rw [Term.subst_app, Term.subst_app] at gain covered' ⊢
      exact .larger covered' (by omega)
  | @head f g ss ts covered same greater =>
      have le := covered.size_subst_mono same.le (θ := θ)
      have covered' := covered.subst (θ := θ)
      rw [Term.subst_app, Term.subst_app] at le covered' ⊢
      exact gt_of_beats covered' le (.inl (by simpa using greater))
  | @lex f g pre post post' a b covered same equal _ ih =>
      have le := covered.size_subst_mono same.le (θ := θ)
      have covered' := covered.subst (θ := θ)
      have down := ih fun v hv => hθ v (Term.mem_vars_app.2 ⟨a, by simp, hv⟩)
      simp only [Term.subst_app, List.map_append, List.map_cons] at le covered' ⊢
      exact gt_of_beats covered' le (.inr ⟨by simpa using equal, _, _, _, _, _, rfl, rfl, down⟩)
  | @var f ss v hv =>
      have covered := (Term.covers_var hv).subst (θ := θ)
      have gain := (Term.covers_var hv).size_subst_le (θ := θ)
      have more : 1 < (Term.app f ss).size := by
        obtain ⟨a, ha, -⟩ := Term.mem_vars_app.1 hv
        exact Nat.lt_of_le_of_lt Term.size_pos (Term.size_lt_of_mem ha)
      have inSig := hθ v hv
      rw [Term.subst_var] at covered gain ⊢
      rw [Term.subst_app] at covered gain ⊢
      generalize θ v = u at covered gain inSig ⊢
      cases inSig with
      | var w => exact .var (covered.mem_vars (Term.mem_vars_var.2 rfl))
      | app _ _ => exact .larger covered (by rw [Term.size_var] at gain; omega)

theorem Gt.arg (refl : cmp.Reflexive sig) (known : sig f (pre ++ s :: post).length)
    (asked : ok (.app f (pre ++ s :: post)) (.app f (pre ++ t :: post))) (h : Gt cmp ok s t) :
    Gt cmp ok (.app f (pre ++ s :: post)) (.app f (pre ++ t :: post)) := by
  have equal : cmp f (pre ++ s :: post).length f (pre ++ t :: post).length = some .eq := by
    simpa using refl f _ known
  exact gt_of_beats asked (Term.size_arg_mono h.size_le) (.inr ⟨equal, _, _, _, _, _, rfl, rfl, h⟩)

theorem Gt.context (lawful : cmp.Lawful sig) (known : sig f (pre ++ s :: post).length)
    (h : Gt cmp Term.Covers s t) :
    Gt cmp Term.Covers (.app f (pre ++ s :: post)) (.app f (pre ++ t :: post)) :=
  h.arg lawful.reflexive known h.covers.arg

/-- No two terms are each greater than the other one, whatever is asked of them. -/
theorem Gt.asymm (lawful : cmp.Lawful sig) (hs : s.Over sig) (ht : t.Over sig) (h : Gt cmp ok s t) :
    ¬ Gt cmp ok t s := by
  induction s using Term.induct generalizing t with
  | var v => exact absurd h not_var_gt
  | missing r => exact absurd hs Term.not_over_missing
  | app f ss ih =>
      intro h'
      have le := h.size_le
      have le' := h'.size_le
      cases ht with
      | var v => exact absurd h' not_var_gt
      | @app g ts knownT overT =>
          obtain ⟨knownS, overS⟩ := Term.over_app_iff.1 hs
          obtain ⟨-, less | ⟨-, beats⟩⟩ := gt_app_iff.1 h
          · exact absurd le' (Nat.not_le.2 less)
          obtain ⟨-, less | ⟨-, beats'⟩⟩ := gt_app_iff.1 h'
          · exact absurd le (Nat.not_le.2 less)
          refine (beats.trans lawful knownS knownT knownS beats' ?_).irrefl (lawful.reflexive f _ knownS)
            fun a ha => Gt.irrefl lawful.reflexive (overS a ha)
          intro _ pre a b c post post' post'' splitS splitT splitS' first second
          obtain ⟨rfl, -⟩ := List.cons.inj (List.append_cancel_left (splitS.symm.trans splitS'))
          have ha : a ∈ ss := by simp [splitS]
          exact absurd second (ih a ha (overS a ha) (overT b (by simp [splitT])) first)

/-- Transitivity, by induction on the first term, where what is asked is transitive and what is greater
than a term with a variable has that variable whenever the comparison of the outer terms ends there. -/
theorem Gt.trans_of_ends (lawful : cmp.Lawful sig) (asked : ∀ {a b c}, ok a b → ok b c → ok a c)
    (hs : s.Over sig) (ht : t.Over sig) (hu : u.Over sig) (h : Gt cmp ok s t) (h' : Gt cmp ok t u)
    (ends : ∀ a b v, Compares cmp s u a (.var v) → Gt cmp ok a b → Gt cmp ok b (.var v) → v ∈ a.vars) :
    Gt cmp ok s u := by
  induction s using Term.induct generalizing t u with
  | var v => exact absurd h not_var_gt
  | missing r => exact absurd hs Term.not_over_missing
  | app f ss ih =>
      have le := h.size_le
      have le' := h'.size_le
      cases ht with
      | var v => exact absurd h' not_var_gt
      | @app g ts knownT overT =>
          cases hu with
          | var v => exact .var (ends _ _ v .here h h')
          | @app k us knownU overU =>
              obtain ⟨knownS, overS⟩ := Term.over_app_iff.1 hs
              have both := asked (gt_app_iff.1 h).1 (gt_app_iff.1 h').1
              obtain ⟨-, less | ⟨same, beats⟩⟩ := gt_app_iff.1 h
              · exact .larger both (le'.trans_lt less)
              obtain ⟨-, less | ⟨same', beats'⟩⟩ := gt_app_iff.1 h'
              · exact .larger both (less.trans_le le)
              refine gt_of_beats both (le'.trans le) (beats.trans lawful knownS knownT knownU beats' ?_)
              intro equal pre a b c post post' post'' splitS splitT splitU first second
              have ha : a ∈ ss := by simp [splitS]
              have overB := overT b (by simp [splitT])
              refine ih a ha (overS a ha) overB (overU c (by simp [splitU])) first second ?_
              intro x y v inner
              have differ : a ≠ c := by
                rintro rfl
                exact first.asymm lawful (overS a ha) overB second
              subst splitS splitU
              exact ends x y v (.inside (same'.trans same) equal differ inner)

/-- With the variable condition the order is transitive. -/
theorem Gt.trans (lawful : cmp.Lawful sig) (hs : s.Over sig) (ht : t.Over sig) (hu : u.Over sig)
    (h : Gt cmp Term.Covers s t) (h' : Gt cmp Term.Covers t u) : Gt cmp Term.Covers s u := by
  refine h.trans_of_ends lawful Term.Covers.trans hs ht hu h' ?_
  intro a b v _ first second
  exact (first.covers.trans second.covers).mem_vars (Term.mem_vars_var.2 rfl)

/-- Without it, transitivity holds where the comparison with a variable does not fail in the end. -/
theorem Gt.trans_of_compares (lawful : cmp.Lawful sig) (hs : s.Over sig) (ht : t.Over sig)
    (hu : u.Over sig) (h : Gt cmp (fun _ _ => True) s t) (h' : Gt cmp (fun _ _ => True) t u)
    (ends : ∀ a v, Compares cmp s u a (.var v) → v ∈ a.vars) : Gt cmp (fun _ _ => True) s u :=
  h.trans_of_ends lawful (fun _ _ => trivial) hs ht hu h' fun a _ v inner _ _ => ends a v inner

/-- What is greater is so in all that it takes to compare the two terms. -/
theorem Gt.compares {a b : Term} (refl : cmp.Reflexive sig) (hs : s.Over sig) (h : Gt cmp ok s t)
    (inner : Compares cmp s t a b) : Gt cmp ok a b := by
  induction inner with
  | here => exact h
  | @inside f g pre post post' a b x y same equal differ _ ih =>
      have overA := (Term.over_app_iff.1 hs).2
      refine ih (overA a (by simp)) ?_
      obtain ⟨-, less | ⟨-, greater | ⟨-, pre', c, d, rest, rest', splitS, splitT, down⟩⟩⟩ := gt_app_iff.1 h
      · exact absurd same less.ne
      · rw [equal] at greater
        cases greater
      -- the arguments that decided are those where the lists first differ
      have apart : c ≠ d := by
        rintro rfl
        exact down.irrefl refl (overA c (by simp [splitS]))
      obtain ⟨rfl, rfl⟩ := first_difference_unique differ apart splitS splitT
      exact down

/-- The order, whatever it takes to test it. -/
def gauge (lawful : cmp.Lawful sig) : Gauge where
  sig := sig
  gt := Gt cmp Term.Covers
  strict := False
  distinct := False
  trans := fun hs ht hu h h' => h.trans lawful hs ht hu h'
  subst := fun _ _ hθ h => h.subst fun v _ => hθ v
  arg := fun hs _ h => h.context lawful (Term.over_app_iff.1 hs).1
  irrefl := fun no => no.elim

/-- Smaller terms over a signature. -/
def Less (cmp : HeadComparison) (sig : Signature) (t s : Term) : Prop :=
  t.Over sig ∧ s.Over sig ∧ Gt cmp Term.Covers s t

theorem acc_var : Acc (Less cmp sig) (.var v) := by
  constructor
  rintro u ⟨-, -, down⟩
  exact absurd down not_var_gt

/-- An application is accessible if the smaller terms are. The induction is on the head and then on the
arguments. -/
theorem acc_app {n : Nat} (lawful : cmp.Lawful sig)
    (smaller : ∀ t : Term, t.Over sig → t.size < n → Acc (Less cmp sig) t) (x : Head × Nat) :
    ∀ ss : List Term, ss.length = x.2 → (Term.app x.1 ss).Over sig → (Term.app x.1 ss).size = n →
      Acc (Less cmp sig) (.app x.1 ss) := by
  induction x using lawful.wf.induction with
  | _ x ihHead =>
      obtain ⟨f, m⟩ := x
      intro ss (length : ss.length = m) hs size
      have accArgs : ∀ {g : Head} {ts : List Term}, (Term.app g ts).Over sig → (Term.app g ts).size = n →
          ∀ a ∈ ts, Acc (Less cmp sig) a := by
        intro g ts ht size a ha
        exact smaller a ((Term.over_app_iff.1 ht).2 a ha) (size ▸ Term.size_lt_of_mem ha)
      have accList := acc_lexLess (accArgs hs size)
      induction accList with
      | intro ss _ ihArgs =>
          constructor
          rintro t ⟨ht, -, down⟩
          cases down with
          | var _ => exact acc_var
          | larger _ less => exact smaller _ ht (size ▸ less)
          | @head _ g _ ts _ same greater =>
              have knownS : sig f m := length ▸ (Term.over_app_iff.1 hs).1
              exact ihHead (g, ts.length) ⟨(Term.over_app_iff.1 ht).1, knownS, length ▸ greater⟩ ts rfl ht
                (same.trans size)
          | @lex _ g pre post post' a b _ same equal down =>
              obtain ⟨knownS, overS⟩ := Term.over_app_iff.1 hs
              obtain ⟨knownT, overT⟩ := Term.over_app_iff.1 ht
              obtain ⟨rfl, lengths⟩ := (lawful.eq_iff knownS knownT).1 equal
              have lower : LexLess (Less cmp sig) (pre ++ b :: post') (pre ++ a :: post) :=
                ⟨accArgs ht (same.trans size), lengths.symm, pre, a, b, post, post', rfl, rfl,
                  overT b (by simp), overS a (by simp), down⟩
              exact ihArgs _ lower (lengths.symm.trans length) ht (same.trans size)

/-- The order is well-founded, by induction on the size. -/
theorem wf_less (lawful : cmp.Lawful sig) : WellFounded (Less cmp sig) := by
  constructor
  intro t
  by_cases ht : t.Over sig
  · induction size : t.size using Nat.strong_induction_on generalizing t with
    | _ n ih =>
        cases ht with
        | var v => exact acc_var
        | @app f args known sub =>
            exact acc_app lawful (fun u hu less => ih _ less u hu rfl) (f, args.length) args rfl
              (.app known sub) size
  · constructor
    rintro u ⟨-, ht', -⟩
    exact absurd ht' ht

theorem reductionOrder (lawful : cmp.Lawful sig) : ReductionOrder sig (Gt cmp Term.Covers) where
  irrefl := fun hs => Gt.irrefl lawful.reflexive hs
  trans := fun hs ht hu h h' => h.trans lawful hs ht hu h'
  wf := wf_less lawful
  subst := fun _ _ hθ h => h.subst fun v _ => hθ v
  arg := fun hs _ h => h.context lawful (Term.over_app_iff.1 hs).1

/-- Any two different ground terms are comparable, by induction on the first one. -/
theorem total (lawful : cmp.Lawful sig) (compares : cmp.Total sig) (hs : s.Over sig) (ht : t.Over sig)
    (groundS : s.IsGround) (groundT : t.IsGround) (differ : s ≠ t) :
    Gt cmp Term.Covers s t ∨ Gt cmp Term.Covers t s := by
  induction s using Term.induct generalizing t with
  | var v => exact absurd groundS (by simp [Term.IsGround, Term.vars])
  | missing r => exact absurd hs Term.not_over_missing
  | app f ss ih =>
      cases ht with
      | var v => exact absurd groundT (by simp [Term.IsGround, Term.vars])
      | @app g ts knownT overT =>
          obtain ⟨knownS, overS⟩ := Term.over_app_iff.1 hs
          rcases Nat.lt_trichotomy (Term.app f ss).size (Term.app g ts).size with less | same | less
          · exact .inr (.larger groundS.covers less)
          · obtain ⟨o, compared⟩ := compares.some knownS knownT
            cases o with
            | gt => exact .inl (.head groundT.covers same.symm compared)
            | lt => exact .inr (.head groundS.covers same (compares.swap knownS knownT compared))
            | eq =>
                obtain ⟨rfl, length⟩ := (lawful.eq_iff knownS knownT).1 compared
                have args : ss ≠ ts := fun equal => differ (by rw [equal])
                obtain ⟨pre, a, b, post, post', rfl, rfl, apart⟩ := exists_first_difference length args
                rcases ih a (by simp) (overS a (by simp)) (overT b (by simp)) (groundS.arg (by simp))
                  (groundT.arg (by simp)) apart with down | down
                · exact .inl (.lex groundT.covers same.symm compared down)
                · have compared' := (lawful.eq_iff knownT knownS).2 ⟨rfl, length.symm⟩
                  exact .inr (.lex groundS.covers same compared' down)
          · exact .inl (.larger groundT.covers less)

end
end Kbo
end OrderedCompletion
