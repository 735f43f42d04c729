import OrderedCompletion.Proofs.PathOrder

/-! The test of the lexicographic path order on stored terms. -/

namespace OrderedCompletion.Lpo

variable {cmp : HeadComparison} {sig : Signature} {s : Store} {r q : Ref} {rs qs : List Ref} {n : Nat}

/-- What the test has to know of a relation that it decides: when one application is greater than another one.
-/
structure Unfolds (cmp : HeadComparison) (sig : Signature) (gt : Term → Term → Prop) : Prop where
  irrefl : ∀ {t : Term}, t.Over sig → ¬ gt t t
  var : ∀ {v : Var} {t : Term}, ¬ gt (.var v) t
  app_var : ∀ {f : Head} {ss : List Term} {v : Var}, gt (.app f ss) (.var v) ↔ v ∈ (Term.app f ss).vars
  app_app : ∀ {f g : Head} {ss ts : List Term}, Term.app f ss ≠ .app g ts →
    (gt (.app f ss) (.app g ts) ↔ (∃ a ∈ ss, a = .app g ts ∨ gt a (.app g ts)) ∨
      Beats cmp gt f ss g ts ∧ ∀ b ∈ ts, gt (.app f ss) b)

variable {gt : Term → Term → Prop}

/-- Whether an argument is at least the other term. -/
theorem anyAtLeast_spec (wf : s.WellFormed) (hq : q < s.size) (known : ∀ a ∈ rs, a < s.size)
    (inner : ∀ a ∈ rs, s.Asks (greaterWithin cmp n a q) fun yes =>
      yes = true ↔ gt (s.term a) (s.term q)) :
    s.Asks (rs.anyM fun a => if a = q then return true else greaterWithin cmp n a q) fun yes =>
      yes = true ↔ ∃ a ∈ rs, s.term a = s.term q ∨ gt (s.term a) (s.term q) := by
  apply Store.Asks.anyM
  intro a ha
  by_cases here : a = q
  · rw [if_pos here]
    apply Store.Asks.pure
    simp [here]
  · rw [if_neg here]
    apply (inner a ha).mono
    intro yes answer
    rw [answer, Store.term_eq_iff wf (known a ha) hq, or_iff_right here]

/-- Whether an application beats another one and is greater than all its arguments. -/
theorem beats_spec {f g : Head} {P : Prop} (wf : s.WellFormed) (knownR : ∀ a ∈ rs, a < s.size)
    (knownQ : ∀ b ∈ qs, b < s.size) (irrefl : ∀ a ∈ rs, ¬ gt (s.term a) (s.term a))
    (inner : ∀ a ∈ rs, ∀ b ∈ qs, s.Asks (greaterWithin cmp n a b) fun yes =>
      yes = true ↔ gt (s.term a) (s.term b))
    {all : StoreM Bool} (below : s.Asks all fun yes => yes = true ↔ P) :
    s.Asks (match cmp f rs.length g qs.length with
      | some .gt => all
      | some .eq =>
        match firstDifference rs qs with
        | some (a, b) => do if ← greaterWithin cmp n a b then all else return false
        | none => return false
      | some .lt => return false
      | none => return false) fun yes =>
        yes = true ↔ Beats cmp gt f (rs.map s.term) g (qs.map s.term) ∧ P := by
  rw [beats_iff wf knownR knownQ irrefl]
  cases cmp f rs.length g qs.length with
  | none => exact .pure (by simp)
  | some o =>
      cases o with
      | lt => exact .pure (by simp)
      | gt => exact below.mono fun yes answer => by simp [answer]
      | eq =>
          cases differ : firstDifference rs qs with
          | none => exact .pure (by simp)
          | some pair =>
              obtain ⟨a, b⟩ := pair
              obtain ⟨pre, post, post', rfl, rfl⟩ := firstDifference_eq_some differ
              apply (inner a (by simp) b (by simp)).bind
              intro yes greater
              cases yes with
              | false =>
                  have smaller : ¬ gt (s.term a) (s.term b) := fun h => by cases greater.2 h
                  exact .pure (by simp [smaller])
              | true => exact below.mono fun yes answer => by simp [answer, greater.1 rfl]

/-- When a stored application is greater than another one. -/
theorem Unfolds.app_app_stored {f g : Head} (unfolds : Unfolds cmp sig gt) (wf : s.WellFormed)
    (hr : r < s.size) (hq : q < s.size) (hnodeR : s.node? r = some (.app f rs))
    (hnodeQ : s.node? q = some (.app g qs)) (differ : r ≠ q) :
    gt (s.term r) (s.term q) ↔ (∃ a ∈ rs, s.term a = s.term q ∨ gt (s.term a) (s.term q)) ∨
      Beats cmp gt f (rs.map s.term) g (qs.map s.term) ∧ ∀ b ∈ qs, gt (s.term r) (s.term b) := by
  have apart : s.term r ≠ s.term q := mt (Store.term_eq_iff wf hr hq).1 differ
  rw [wf.below.term_app hnodeR, wf.below.term_app hnodeQ] at apart ⊢
  rw [unfolds.app_app apart]
  simp

theorem Unfolds.greaterWithin (unfolds : Unfolds cmp sig gt) (wf : s.WellFormed) (hr : r < s.size)
    (hq : q < s.size) (overR : (s.term r).Over sig) (overQ : (s.term q).Over sig) (enough : r + q < n) :
    s.Asks (greaterWithin cmp n r q) fun yes => yes = true ↔ gt (s.term r) (s.term q) := by
  induction n generalizing r q with
  | zero => exact absurd enough (Nat.not_lt_zero _)
  | succ n ih =>
      rw [Lpo.greaterWithin]
      by_cases equal : r = q
      · rw [if_pos equal]
        subst equal
        apply Store.Asks.pure
        simp [unfolds.irrefl overR]
      rw [if_neg equal]
      apply Store.Asks.bindGet
      intro s₁ same
      obtain ⟨nodeR, hnodeR⟩ := Store.exists_node hr
      obtain ⟨nodeQ, hnodeQ⟩ := Store.exists_node hq
      rw [same.node?, same.node?, hnodeR, hnodeQ]
      cases nodeR with
      | var v =>
          apply Store.Asks.pure
          rw [wf.below.term_var hnodeR]
          simp [unfolds.var]
      | app f rs =>
          cases nodeQ with
          | var v =>
              apply (Store.Asks.occurs hr v).mono
              intro yes answer
              rw [answer, wf.below.term_var hnodeQ, wf.below.term_app hnodeR, unfolds.app_var]
          | app g qs =>
              have remains : r + q ≤ n := Nat.le_of_lt_succ enough
              have argR : ∀ a ∈ rs, _ := fun a ha => arg_of_node wf hr hnodeR overR ha
              have argQ : ∀ b ∈ qs, _ := fun b hb => arg_of_node wf hq hnodeQ overQ hb
              have any := anyAtLeast_spec wf hq (fun a ha => (argR a ha).2.1) fun a ha => by
                obtain ⟨less, ha', over'⟩ := argR a ha
                exact ih ha' hq over' overQ (Nat.lt_of_lt_of_le (Nat.add_lt_add_right less q) remains)
              have all : s.Asks (qs.allM (Lpo.greaterWithin cmp n r)) fun yes =>
                  yes = true ↔ ∀ b ∈ qs, gt (s.term r) (s.term b) := by
                apply Store.Asks.allM
                intro b hb
                obtain ⟨less, hb', over'⟩ := argQ b hb
                exact ih hr hb' overR over' (Nat.lt_of_lt_of_le (Nat.add_lt_add_left less r) remains)
              apply any.bind
              intro yes found
              rw [unfolds.app_app_stored wf hr hq hnodeR hnodeQ equal, ← found]
              cases yes with
              | true => exact .pure (by simp)
              | false =>
                  rw [or_iff_right Bool.false_ne_true]
                  apply beats_spec wf (fun a ha => (argR a ha).2.1) (fun b hb => (argQ b hb).2.1)
                    (fun a ha => unfolds.irrefl (argR a ha).2.2) _ all
                  intro a ha b hb
                  obtain ⟨lessA, ha', overA⟩ := argR a ha
                  obtain ⟨lessB, hb', overB⟩ := argQ b hb
                  exact ih ha' hb' overA overB (Nat.lt_of_lt_of_le (Nat.add_lt_add lessA lessB) remains)

theorem Unfolds.greater (unfolds : Unfolds cmp sig gt) (wf : s.WellFormed) (hr : r < s.size)
    (hq : q < s.size) (overR : (s.term r).Over sig) (overQ : (s.term q).Over sig) :
    s.Ensures (greater cmp r q) fun yes s' => Store.SameTerms s s' ∧
      (yes = true ↔ gt (s.term r) (s.term q)) := by
  rw [Lpo.greater]
  apply (Store.Ensures.get wf).bind
  rintro _ s₁ - - ⟨rfl, rfl⟩
  apply unfolds.greaterWithin wf hr hq overR overQ _ s₁ wf (.refl s₁)
  rw [Store.bound]
  calc r + q < s₁.size + s₁.size := Nat.add_lt_add hr hq
    _ ≤ 2 * (s₁.size + 1) := by omega

theorem gt_unfolds (lawful : cmp.Lawful sig) : Unfolds cmp sig (Gt cmp) where
  irrefl := Gt.irrefl lawful
  var := not_var_gt
  app_var := gt_var_iff
  app_app := fun _ => gt_app_iff

theorem greater_spec (lawful : cmp.Lawful sig) (wf : s.WellFormed) (hr : r < s.size)
    (hq : q < s.size) (overR : (s.term r).Over sig) (overQ : (s.term q).Over sig) :
    s.Ensures (greater cmp r q) fun yes s' => Store.SameTerms s s' ∧
      (yes = true ↔ Gt cmp (s.term r) (s.term q)) :=
  (gt_unfolds lawful).greater wf hr hq overR overQ

end OrderedCompletion.Lpo

/-! ### What the order says of any comparison of heads -/

namespace OrderedCompletion.Lpo

variable {cmp : HeadComparison} {s t : Term} {v : Var}

/-- A term is greater than its arguments and what these are greater than, and than an application all of whose
arguments it is greater than if it has the greater head or, with equal heads, the greater argument where they
first differ; but no term is greater than itself. -/
inductive Says (cmp : HeadComparison) : Term → Term → Prop
  | arg {f : Head} {args : List Term} {a : Term} : a ∈ args → Says cmp (.app f args) a
  | inside {f : Head} {args : List Term} {a t : Term} : Term.app f args ≠ t → a ∈ args → Says cmp a t →
      Says cmp (.app f args) t
  | head {f g : Head} {ss ts : List Term} : Term.app f ss ≠ .app g ts →
      cmp f ss.length g ts.length = some .gt → (∀ t ∈ ts, Says cmp (.app f ss) t) →
      Says cmp (.app f ss) (.app g ts)
  | lex {f g : Head} {pre post post' : List Term} {a b : Term} :
      Term.app f (pre ++ a :: post) ≠ .app g (pre ++ b :: post') →
      cmp f (pre ++ a :: post).length g (pre ++ b :: post').length = some .eq → Says cmp a b →
      (∀ t ∈ pre ++ b :: post', Says cmp (.app f (pre ++ a :: post)) t) →
      Says cmp (.app f (pre ++ a :: post)) (.app g (pre ++ b :: post'))

theorem Says.ne (h : Says cmp s t) : s ≠ t := by
  cases h with
  | @arg f args a ha =>
      intro same
      exact Nat.lt_irrefl _ (same ▸ Term.sizeOf_lt (f := f) ha)
  | inside differ => exact differ
  | head differ => exact differ
  | lex differ => exact differ

theorem Says.mem_vars (h : Says cmp s t) (hv : v ∈ t.vars) : v ∈ s.vars := by
  induction h with
  | arg ha => exact Term.mem_vars_app.2 ⟨_, ha, hv⟩
  | inside _ ha _ ih => exact Term.mem_vars_app.2 ⟨_, ha, ih hv⟩
  | head _ _ _ ih =>
      obtain ⟨t, ht, hv⟩ := Term.mem_vars_app.1 hv
      exact ih t ht hv
  | lex _ _ _ _ _ ih =>
      obtain ⟨t, ht, hv⟩ := Term.mem_vars_app.1 hv
      exact ih t ht hv

theorem says_of_mem_vars (hv : v ∈ t.vars) : t = .var v ∨ Says cmp t (.var v) := by
  induction t using Term.induct with
  | var w => exact .inl (congrArg Term.var (Term.mem_vars_var.1 hv).symm)
  | missing r => simp at hv
  | app f args ih =>
      obtain ⟨a, ha, hv⟩ := Term.mem_vars_app.1 hv
      rcases ih a ha hv with rfl | h
      · exact .inr (.arg ha)
      · exact .inr (.inside nofun ha h)

theorem says_unfolds : Unfolds cmp .full (Says cmp) where
  irrefl := fun _ h => h.ne rfl
  var := nofun
  app_var :=
    ⟨fun h => h.mem_vars (Term.mem_vars_var.2 rfl), fun hv => (says_of_mem_vars hv).resolve_left nofun⟩
  app_app := by
    intro f g ss ts differ
    constructor
    · intro h
      cases h with
      | arg ha => exact .inl ⟨_, ha, .inl rfl⟩
      | inside _ ha h => exact .inl ⟨_, ha, .inr h⟩
      | head _ greater below => exact .inr ⟨.inl greater, below⟩
      | lex _ equal down below => exact .inr ⟨.inr ⟨equal, _, _, _, _, _, rfl, rfl, down⟩, below⟩
    · rintro (⟨a, ha, rfl | h⟩ | ⟨greater | ⟨equal, pre, a, b, post, post', rfl, rfl, down⟩, below⟩)
      · exact .arg ha
      · exact .inside differ ha h
      · exact .head differ greater below
      · exact .lex differ equal down below

theorem Says.isApp (h : Says cmp s t) : s.IsApp := by
  cases h with
  | arg _ => trivial
  | inside _ _ _ => trivial
  | head _ _ _ => trivial
  | lex _ _ _ _ => trivial

end OrderedCompletion.Lpo
