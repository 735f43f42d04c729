import OrderedCompletion.Order.Lpo
import OrderedCompletion.Proofs.Gauge
import OrderedCompletion.Proofs.Lexicographic

/-! The lexicographic path order on terms is a reduction order. -/

namespace OrderedCompletion.Lpo

/-- A term is greater than its arguments and what these are greater than, and than an application all of
whose arguments it is greater than if it has the greater head or, with equal heads, the greater argument
where they first differ. -/
inductive Gt (cmp : HeadComparison) : Term → Term → Prop
  | arg {f : Head} {args : List Term} {a : Term} : a ∈ args → Gt cmp (.app f args) a
  | inside {f : Head} {args : List Term} {a t : Term} : a ∈ args → Gt cmp a t →
      Gt cmp (.app f args) t
  | head {f g : Head} {ss ts : List Term} : cmp f ss.length g ts.length = some .gt →
      (∀ t ∈ ts, Gt cmp (.app f ss) t) → Gt cmp (.app f ss) (.app g ts)
  | lex {f g : Head} {pre post post' : List Term} {a b : Term} :
      cmp f (pre ++ a :: post).length g (pre ++ b :: post').length = some .eq → Gt cmp a b →
      (∀ t ∈ pre ++ b :: post', Gt cmp (.app f (pre ++ a :: post)) t) →
      Gt cmp (.app f (pre ++ a :: post)) (.app g (pre ++ b :: post'))

section
variable {cmp : HeadComparison} {sig : Signature} {s t u : Term} {θ : Var → Term}
variable {f g : Head} {ss ts : List Term}

theorem Gt.subst (h : Gt cmp s t) : Gt cmp (s.subst θ) (t.subst θ) := by
  induction h with
  | arg ha =>
      rw [Term.subst_app]
      exact .arg (List.mem_map_of_mem ha)
  | inside ha _ ih =>
      rw [Term.subst_app]
      exact .inside (List.mem_map_of_mem ha) ih
  | @head f g ss ts greater _ ih =>
      rw [Term.subst_app, Term.subst_app]
      rw [Term.subst_app] at ih
      apply Gt.head
      · rwa [List.length_map, List.length_map]
      · intro t ht
        obtain ⟨u, hu, rfl⟩ := List.mem_map.1 ht
        exact ih u hu
  | @lex f g pre post post' a b same _ _ ih ih' =>
      simp only [Term.subst_app, List.map_append, List.map_cons] at ih' ⊢
      apply Gt.lex
      · simpa using same
      · exact ih
      · intro t ht
        have here : t ∈ (pre ++ b :: post').map (Term.subst θ) := by simpa using ht
        obtain ⟨u, hu, rfl⟩ := List.mem_map.1 here
        exact ih' u hu

theorem Gt.context {pre post : List Term} (lawful : cmp.Lawful sig)
    (known : sig f (pre ++ s :: post).length) (h : Gt cmp s t) :
    Gt cmp (.app f (pre ++ s :: post)) (.app f (pre ++ t :: post)) := by
  have known' : sig f (pre ++ t :: post).length := by simpa using known
  refine .lex ((lawful.eq_iff known known').2 ⟨rfl, by simp⟩) h ?_
  intro u hu
  rcases List.mem_append.1 hu with hu | hu
  · exact .arg (List.mem_append_left _ hu)
  · rcases List.mem_cons.1 hu with rfl | hu
    · exact .inside (by simp) h
    · exact .arg (by simp [hu])

/-- Every variable of a smaller term occurs in the greater one. -/
theorem Gt.mem_vars {v : Var} (h : Gt cmp s t) (hv : v ∈ t.vars) : v ∈ s.vars := by
  induction h with
  | @arg f args a ha => exact Term.mem_vars_app.2 ⟨a, ha, hv⟩
  | @inside f args a t ha _ ih => exact Term.mem_vars_app.2 ⟨a, ha, ih hv⟩
  | head _ _ ih =>
      obtain ⟨t, ht, hv⟩ := Term.mem_vars_app.1 hv
      exact ih t ht hv
  | lex _ _ _ _ ih =>
      obtain ⟨t, ht, hv⟩ := Term.mem_vars_app.1 hv
      exact ih t ht hv

theorem gt_var_iff {v : Var} : Gt cmp (.app f ss) (.var v) ↔ v ∈ (Term.app f ss).vars := by
  constructor
  · intro h
    exact h.mem_vars (Term.mem_vars_var.2 rfl)
  · intro h
    suffices gen : ∀ t : Term, v ∈ t.vars → t = .var v ∨ Gt cmp t (.var v) by
      rcases gen _ h with same | h
      · cases same
      · exact h
    intro t
    induction t using Term.induct with
    | var w =>
        intro hv
        left
        rw [Term.mem_vars_var.1 hv]
    | missing r => simp
    | app f args ih =>
        intro hv
        right
        obtain ⟨a, ha, hv⟩ := Term.mem_vars_app.1 hv
        rcases ih a ha hv with rfl | h
        · exact .arg ha
        · exact .inside ha h

theorem gt_of_beats (h : Beats cmp (Gt cmp) f ss g ts) (below : ∀ t ∈ ts, Gt cmp (.app f ss) t) :
    Gt cmp (.app f ss) (.app g ts) := by
  rcases h with greater | ⟨same, pre, a, b, post, post', rfl, rfl, down⟩
  · exact .head greater below
  · exact .lex same down below

/-- Why one term is greater than another one. -/
theorem Gt.cases_app (h : Gt cmp s t) : ∃ f ss, s = .app f ss ∧
    ((∃ a ∈ ss, a = t ∨ Gt cmp a t) ∨
      ∃ g ts, t = .app g ts ∧ Beats cmp (Gt cmp) f ss g ts ∧ ∀ u ∈ ts, Gt cmp s u) := by
  cases h with
  | @arg f ss _ ha => exact ⟨f, ss, rfl, .inl ⟨t, ha, .inl rfl⟩⟩
  | @inside f ss a _ ha down => exact ⟨f, ss, rfl, .inl ⟨a, ha, .inr down⟩⟩
  | @head f g ss ts greater below => exact ⟨f, ss, rfl, .inr ⟨g, ts, rfl, .inl greater, below⟩⟩
  | @lex f g pre post post' a b same down below =>
      exact ⟨f, _, rfl, .inr ⟨g, _, rfl, .inr ⟨same, pre, a, b, post, post', rfl, rfl, down⟩, below⟩⟩

theorem gt_app_iff : Gt cmp (.app f ss) (.app g ts) ↔
    (∃ a ∈ ss, a = .app g ts ∨ Gt cmp a (.app g ts)) ∨
      Beats cmp (Gt cmp) f ss g ts ∧ ∀ u ∈ ts, Gt cmp (.app f ss) u := by
  constructor
  · intro h
    obtain ⟨f', ss', same, via | ⟨g', ts', same', beats, below⟩⟩ := h.cases_app
    · obtain ⟨rfl, rfl⟩ := Term.app.inj same
      exact .inl via
    · obtain ⟨rfl, rfl⟩ := Term.app.inj same
      obtain ⟨rfl, rfl⟩ := Term.app.inj same'
      exact .inr ⟨beats, below⟩
  · rintro (⟨a, ha, rfl | down⟩ | ⟨beats, below⟩)
    · exact .arg ha
    · exact .inside ha down
    · exact gt_of_beats beats below

theorem not_var_gt {v : Var} : ¬ Gt cmp (.var v) t := by
  intro h
  obtain ⟨f, ss, same, -⟩ := h.cases_app
  cases same

/-- Transitivity, by induction on the sizes of all three terms. -/
theorem Gt.trans (lawful : cmp.Lawful sig) (hs : s.Over sig) (ht : t.Over sig) (hu : u.Over sig)
    (h : Gt cmp s t) (h' : Gt cmp t u) : Gt cmp s u := by
  induction size : sizeOf s + sizeOf t + sizeOf u using Nat.strong_induction_on generalizing s t u with
  | _ n ih =>
      obtain ⟨f, ss, rfl, ⟨a, ha, down⟩ | ⟨g, ts, rfl, beats, below⟩⟩ := h.cases_app
      · rcases down with rfl | down
        · exact .inside ha h'
        · have smaller := Term.sizeOf_lt (f := f) ha
          exact .inside ha (ih _ (by omega) ((Term.over_app_iff.1 hs).2 a ha) ht hu down h' rfl)
      · obtain ⟨g', ts', same, why⟩ := h'.cases_app
        obtain ⟨rfl, rfl⟩ := Term.app.inj same
        rcases why with ⟨b, hb, down⟩ | ⟨k, us, rfl, beats', below'⟩
        · rcases down with rfl | down
          · exact below b hb
          · have smaller := Term.sizeOf_lt (f := g) hb
            exact ih _ (by omega) hs ((Term.over_app_iff.1 ht).2 b hb) hu (below b hb) down rfl
        · apply gt_of_beats
          · refine beats.trans lawful (Term.over_app_iff.1 hs).1 (Term.over_app_iff.1 ht).1
              (Term.over_app_iff.1 hu).1 beats' ?_
            intro _ pre a b c _ _ _ splitS splitT splitU first second
            have ha : a ∈ ss := by simp [splitS]
            have hb : b ∈ ts := by simp [splitT]
            have hc : c ∈ us := by simp [splitU]
            have smallerA := Term.sizeOf_lt (f := f) ha
            have smallerB := Term.sizeOf_lt (f := g) hb
            have smallerC := Term.sizeOf_lt (f := k) hc
            exact ih _ (by omega) ((Term.over_app_iff.1 hs).2 a ha) ((Term.over_app_iff.1 ht).2 b hb)
              ((Term.over_app_iff.1 hu).2 c hc) first second rfl
          · intro c hc
            have smaller := Term.sizeOf_lt (f := k) hc
            exact ih _ (by omega) hs ht ((Term.over_app_iff.1 hu).2 c hc) h (below' c hc) rfl

/-- Smaller terms over a signature. -/
def Less (cmp : HeadComparison) (sig : Signature) (t s : Term) : Prop :=
  t.Over sig ∧ s.Over sig ∧ Gt cmp s t

end

section
variable {cmp : HeadComparison} {sig : Signature} {s t u : Term} {f : Head} {ss : List Term}

/-- An application of accessible arguments is accessible. The induction is on the head, then on the
arguments and then on the smaller term. -/
theorem acc_app (lawful : cmp.Lawful sig) (x : Head × Nat) :
    ∀ ss : List Term, ss.length = x.2 → (Term.app x.1 ss).Over sig → (∀ a ∈ ss, Acc (Less cmp sig) a) →
      Acc (Less cmp sig) (.app x.1 ss) := by
  induction x using lawful.wf.induction with
  | _ x ihHead =>
      obtain ⟨f, n⟩ := x
      intro ss (length : ss.length = n) hs accs
      have accList := acc_lexLess accs
      induction accList with
      | intro ss _ ihArgs =>
          -- a smaller term is accessible once its arguments are
          have step : ∀ t, Less cmp sig t (.app f ss) →
              (∀ g ts, t = .app g ts → ∀ u ∈ ts, Acc (Less cmp sig) u) → Acc (Less cmp sig) t := by
            intro t less accArgs
            obtain ⟨ht, -, down⟩ := less
            obtain ⟨f', ss', same, ⟨a, ha, down⟩ | ⟨g, ts, rfl, beats, -⟩⟩ := down.cases_app
            · obtain ⟨rfl, rfl⟩ := Term.app.inj same
              rcases down with rfl | down
              · exact accs a ha
              · exact (accs a ha).inv ⟨ht, (Term.over_app_iff.1 hs).2 a ha, down⟩
            · obtain ⟨rfl, rfl⟩ := Term.app.inj same
              have accTs := accArgs g ts rfl
              have knownS := (Term.over_app_iff.1 hs).1
              have knownT := (Term.over_app_iff.1 ht).1
              rcases beats with greater | ⟨equal, pre, a, b, post, post', rfl, rfl, downArg⟩
              · have knownF : sig f n := length ▸ knownS
                exact ihHead (g, ts.length) ⟨knownT, knownF, length ▸ greater⟩ ts rfl ht accTs
              · obtain ⟨rfl, lengths⟩ := (lawful.eq_iff knownS knownT).1 equal
                have overA := (Term.over_app_iff.1 hs).2 a (by simp)
                have overB := (Term.over_app_iff.1 ht).2 b (by simp)
                exact ihArgs (pre ++ b :: post') ⟨accTs, lengths.symm, pre, a, b, post, post', rfl, rfl,
                  overB, overA, downArg⟩ (lengths.symm.trans length) ht accTs
          constructor
          intro t less
          induction t using Term.induct with
          | var v => exact step _ less fun g ts same => by cases same
          | missing r => exact step _ less fun g ts same => by cases same
          | app g ts ih =>
              refine step _ less ?_
              intro g' ts' same u hu
              obtain ⟨rfl, rfl⟩ := Term.app.inj same
              obtain ⟨ht, -, down⟩ := less
              have hu' := (Term.over_app_iff.1 ht).2 u hu
              exact ih u hu ⟨hu', hs, down.trans lawful hs ht hu' (.arg hu)⟩

theorem acc_of_over (lawful : cmp.Lawful sig) (ht : t.Over sig) : Acc (Less cmp sig) t := by
  induction t using Term.induct with
  | var v =>
      constructor
      rintro u ⟨-, -, down⟩
      exact absurd down not_var_gt
  | missing r => exact absurd ht Term.not_over_missing
  | app f args ih =>
      refine acc_app lawful (f, args.length) args rfl ht ?_
      intro a ha
      exact ih a ha ((Term.over_app_iff.1 ht).2 a ha)

/-- The order is well-founded. -/
theorem wf_less (lawful : cmp.Lawful sig) : WellFounded (Less cmp sig) := by
  constructor
  intro t
  by_cases ht : t.Over sig
  · exact acc_of_over lawful ht
  · constructor
    rintro u ⟨-, ht', -⟩
    exact absurd ht' ht

theorem Gt.irrefl (lawful : cmp.Lawful sig) (hs : s.Over sig) : ¬ Gt cmp s s := by
  intro h
  exact (wf_less lawful).irrefl.irrefl s ⟨hs, hs, h⟩

theorem reductionOrder (lawful : cmp.Lawful sig) : ReductionOrder sig (Gt cmp) where
  irrefl := fun hs => Gt.irrefl lawful hs
  trans := fun hs ht hu h h' => h.trans lawful hs ht hu h'
  wf := wf_less lawful
  subst := fun _ _ _ h => h.subst
  arg := fun hs _ h => h.context lawful (Term.over_app_iff.1 hs).1

/-- A term that no argument is at least as great as is greater than the arguments it can be compared with. -/
theorem below_of_not_inside (compares : ∀ a ∈ ss, a ≠ t → Gt cmp a t ∨ Gt cmp t a)
    (outside : ¬ ∃ a ∈ ss, a = t ∨ Gt cmp a t) : ∀ a ∈ ss, Gt cmp t a := by
  intro a ha
  have apart : a ≠ t := fun same => outside ⟨a, ha, .inl same⟩
  exact (compares a ha apart).resolve_left fun down => outside ⟨a, ha, .inr down⟩

/-- Any two different ground terms are comparable, by induction on the sizes of both. -/
theorem total (lawful : cmp.Lawful sig) (compares : cmp.Total sig) (hs : s.Over sig) (ht : t.Over sig)
    (groundS : s.IsGround) (groundT : t.IsGround) (differ : s ≠ t) : Gt cmp s t ∨ Gt cmp t s := by
  induction size : sizeOf s + sizeOf t using Nat.strong_induction_on generalizing s t with
  | _ n ih =>
      cases hs with
      | var v => exact absurd groundS (by simp [Term.IsGround, Term.vars])
      | @app f ss knownS overS =>
          cases ht with
          | var v => exact absurd groundT (by simp [Term.IsGround, Term.vars])
          | @app g ts knownT overT =>
              by_cases left : ∃ a ∈ ss, a = .app g ts ∨ Gt cmp a (.app g ts)
              · exact .inl (gt_app_iff.2 (.inl left))
              by_cases right : ∃ b ∈ ts, b = .app f ss ∨ Gt cmp b (.app f ss)
              · exact .inr (gt_app_iff.2 (.inl right))
              -- now each of the terms is greater than the arguments of the other one
              have belowT : ∀ a ∈ ss, Gt cmp (.app g ts) a := by
                apply below_of_not_inside _ left
                intro a ha apart
                have smaller := Term.sizeOf_lt (f := f) ha
                exact ih _ (by omega) (overS a ha) (.app knownT overT) (groundS.arg ha) groundT apart rfl
              have belowS : ∀ b ∈ ts, Gt cmp (.app f ss) b := by
                apply below_of_not_inside _ right
                intro b hb apart
                have smaller := Term.sizeOf_lt (f := g) hb
                exact ih _ (by omega) (overT b hb) (.app knownS overS) (groundT.arg hb) groundS apart rfl
              obtain ⟨o, compared⟩ := compares.some knownS knownT
              cases o with
              | gt => exact .inl (.head compared belowS)
              | lt => exact .inr (.head (compares.swap knownS knownT compared) belowT)
              | eq =>
                  obtain ⟨rfl, length⟩ := (lawful.eq_iff knownS knownT).1 compared
                  have args : ss ≠ ts := fun same => differ (by rw [same])
                  obtain ⟨pre, a, b, post, post', rfl, rfl, apart⟩ := exists_first_difference length args
                  have smallerA := Term.sizeOf_lt (f := f) (show a ∈ pre ++ a :: post by simp)
                  have smallerB := Term.sizeOf_lt (f := f) (show b ∈ pre ++ b :: post' by simp)
                  rcases ih _ (by omega) (overS a (by simp)) (overT b (by simp)) (groundS.arg (by simp))
                    (groundT.arg (by simp)) apart rfl with down | down
                  · exact .inl (.lex compared down belowS)
                  · exact .inr (.lex ((lawful.eq_iff knownT knownS).2 ⟨rfl, length.symm⟩) down belowT)

end
end OrderedCompletion.Lpo
