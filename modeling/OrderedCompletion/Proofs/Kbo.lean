import OrderedCompletion.Proofs.Sizes

/-! The test of the Knuth-Bendix order on stored terms. -/

namespace OrderedCompletion

namespace Store

variable {s s' : Store} {r : Ref}

theorem Descends.occurrencesOnto_eq (below : s.Descends) {n : Nat} (hr : r < s.size) (hn : r < n)
    (others : List Var) : s.occurrencesOnto n r others = (s.term r).occurrences ++ others := by
  induction n generalizing r others with
  | zero => exact absurd hn (Nat.not_lt_zero r)
  | succ n ih =>
      rw [occurrencesOnto]
      obtain ⟨node, hnode⟩ := exists_node hr
      rw [hnode]
      cases node with
      | var v =>
          rw [below.term_var hnode]
          rfl
      | app f args =>
          have known := below hnode
          rw [below.term_app hnode, Term.occurrences_app, List.flatMap_map]
          change args.foldr (s.occurrencesOnto n) others = _
          clear hnode
          induction args with
          | nil => rfl
          | cons a args ihArgs =>
              have lt := known a List.mem_cons_self
              have rest := ihArgs fun b hb => known b (List.mem_cons_of_mem _ hb)
              rw [List.foldr_cons, rest, List.flatMap_cons, List.append_assoc]
              exact ih (Nat.lt_trans lt hr) (Nat.lt_of_lt_of_le lt (Nat.le_of_lt_succ hn)) _

theorem Descends.occurrences_eq (below : s.Descends) (hr : r < s.size) :
    s.occurrences r = (s.term r).occurrences := by
  rw [occurrences, below.occurrencesOnto_eq hr (show r < s.bound from Nat.lt_succ_of_lt hr), List.append_nil]

theorem SameTerms.sizeOf (h : SameTerms s s') (r : Ref) : s'.sizeOf r = s.sizeOf r := by
  rw [Store.sizeOf, Store.sizeOf, h.1]

end Store

namespace Kbo

variable {cmp : HeadComparison} {sig : Signature} {s : Store} {r q : Ref}

theorem covers_iff {vs ws : List Var} : covers vs ws = true ↔ ∀ v, ws.count v ≤ vs.count v := by
  rw [covers, List.all_eq_true]
  constructor
  · intro h v
    by_cases hv : v ∈ ws
    · simpa using h v (mem_sortVars.2 hv)
    · rw [List.count_eq_zero_of_not_mem hv]
      exact Nat.zero_le _
  · intro h v _
    simpa using h v

/-- What the test has to know of a relation that it decides. Sizes come first, and of two applications of the
same size one is greater if it beats the other. -/
structure Unfolds (cmp : HeadComparison) (sig : Signature) (size : Term → Nat) (gt : Term → Term → Prop) :
    Prop where
  irrefl : ∀ {t : Term}, t.Over sig → ¬ gt t t
  var : ∀ {v : Var} {t : Term}, ¬ gt (.var v) t
  app_var : ∀ {f : Head} {ss : List Term} {v : Var}, gt (.app f ss) (.var v) ↔ v ∈ (Term.app f ss).vars
  app_app : ∀ {f g : Head} {ss ts : List Term}, Term.app f ss ≠ .app g ts →
    (gt (.app f ss) (.app g ts) ↔ size (.app g ts) < size (.app f ss) ∨
      size (.app g ts) = size (.app f ss) ∧ Beats cmp gt f ss g ts)

variable {size : Term → Nat} {gt : Term → Term → Prop}

/-- Whether an application beats another one of the same size. -/
theorem beats_spec {f g : Head} {rs qs : List Ref} {n : Nat} {P : Prop} (wf : s.WellFormed)
    (knownR : ∀ a ∈ rs, a < s.size) (knownQ : ∀ b ∈ qs, b < s.size)
    (irrefl : P → ∀ a ∈ rs, ¬ gt (s.term a) (s.term a))
    (inner : ∀ a ∈ rs, ∀ b ∈ qs, s.Asks (greaterWithin cmp n a b) fun yes =>
      P → (yes = true ↔ gt (s.term a) (s.term b))) :
    s.Asks (match cmp f rs.length g qs.length with
      | some .gt => return true
      | some .eq =>
        match firstDifference rs qs with
        | some (a, b) => greaterWithin cmp n a b
        | none => return false
      | some .lt => return false
      | none => return false) fun yes => P → (yes = true ↔
        Beats cmp gt f (rs.map s.term) g (qs.map s.term)) := by
  suffices asks : s.Asks _ fun yes => P → (yes = true ↔
      cmp f rs.length g qs.length = some .gt ∨ cmp f rs.length g qs.length = some .eq ∧ ∃ a b,
        firstDifference rs qs = some (a, b) ∧ gt (s.term a) (s.term b)) by
    apply asks.mono
    intro yes answer known
    rw [answer known, beats_iff wf knownR knownQ (irrefl known)]
  cases cmp f rs.length g qs.length with
  | none => exact .pure (by simp)
  | some o =>
      cases o with
      | lt => exact .pure (by simp)
      | gt => exact .pure (by simp)
      | eq =>
          cases differ : firstDifference rs qs with
          | none => exact .pure (by simp)
          | some pair =>
              obtain ⟨a, b⟩ := pair
              obtain ⟨pre, post, post', rfl, rfl⟩ := firstDifference_eq_some differ
              apply (inner a (by simp) b (by simp)).mono
              intro yes answer known
              simp [answer known]

/-- When a stored application is greater than another one, if the store counts the sizes. -/
theorem Unfolds.app_app_stored {f g : Head} {rs qs : List Ref} (unfolds : Unfolds cmp sig size gt)
    (wf : s.WellFormed) (hr : r < s.size) (hq : q < s.size) (hnodeR : s.node? r = some (.app f rs))
    (hnodeQ : s.node? q = some (.app g qs)) (differ : r ≠ q) (counted : s.All fun t n => n.toNat = size t) :
    gt (s.term r) (s.term q) ↔ (s.sizeOf q).toNat < (s.sizeOf r).toNat ∨
      (s.sizeOf q).toNat = (s.sizeOf r).toNat ∧ Beats cmp gt f (rs.map s.term) g (qs.map s.term) := by
  have apart : s.term r ≠ s.term q := mt (Store.term_eq_iff wf hr hq).1 differ
  rw [counted.2 r hr, counted.2 q hq]
  rw [wf.below.term_app hnodeR, wf.below.term_app hnodeQ] at apart ⊢
  rw [unfolds.app_app apart]

theorem Unfolds.greaterWithin {n : Nat} (unfolds : Unfolds cmp sig size gt) (wf : s.WellFormed)
    (hr : r < s.size) (hq : q < s.size) (enough : r < n) :
    s.Asks (greaterWithin cmp n r q) fun yes => s.All (fun t n => n.toNat = size t) ∧ (s.term r).Over sig →
      (yes = true ↔ gt (s.term r) (s.term q)) := by
  induction n generalizing r q with
  | zero => exact absurd enough (Nat.not_lt_zero _)
  | succ n ih =>
      rw [Kbo.greaterWithin]
      by_cases equal : r = q
      · rw [if_pos equal]
        subst equal
        apply Store.Asks.pure
        rintro ⟨-, inSig⟩
        simp [unfolds.irrefl inSig]
      rw [if_neg equal]
      apply Store.Asks.bindGet
      intro s₁ same
      obtain ⟨nodeR, hnodeR⟩ := Store.exists_node hr
      obtain ⟨nodeQ, hnodeQ⟩ := Store.exists_node hq
      rw [same.node?, same.node?, hnodeR, hnodeQ]
      cases nodeR with
      | var v =>
          apply Store.Asks.pure
          rw [wf.below.term_var hnodeR]
          simp [unfolds.var]
      | app f rs =>
          cases nodeQ with
          | var v =>
              apply (Store.Asks.occurs hr v).mono
              intro yes answer _
              rw [answer, wf.below.term_var hnodeQ, wf.below.term_app hnodeR, unfolds.app_var]
          | app g qs =>
              have lessR := wf.below hnodeR
              have lessQ := wf.below hnodeQ
              have why := unfolds.app_app_stored wf hr hq hnodeR hnodeQ equal
              simp only [same.sizeOf]
              cases sizes : Ord.compare (s.sizeOf r) (s.sizeOf q) with
              | gt =>
                  have less := UInt32.lt_iff_toNat_lt.1 (Std.compare_eq_gt.1 sizes)
                  exact .pure fun known => by simp [why known.1, less]
              | lt =>
                  have less := UInt32.lt_iff_toNat_lt.1 (Std.compare_eq_lt.1 sizes)
                  exact .pure fun known => by simp [why known.1, less.le, less.ne']
              | eq =>
                  have inner : ∀ a ∈ rs, ∀ b ∈ qs, s.Asks (Kbo.greaterWithin cmp n a b) fun yes =>
                      s.All (fun t n => n.toNat = size t) ∧ (s.term r).Over sig →
                        (yes = true ↔ gt (s.term a) (s.term b)) := by
                    intro a ha b hb
                    have fuel := Nat.lt_of_lt_of_le (lessR a ha) (Nat.le_of_lt_succ enough)
                    apply (ih ((lessR a ha).trans hr) ((lessQ b hb).trans hq) fuel).mono
                    exact fun yes answer known => answer ⟨known.1, (arg_of_node wf hr hnodeR known.2 ha).2.2⟩
                  apply (beats_spec wf (fun a ha => (lessR a ha).trans hr) (fun b hb => (lessQ b hb).trans hq)
                    (fun known a ha => unfolds.irrefl (arg_of_node wf hr hnodeR known.2 ha).2.2) inner).mono
                  intro yes answer known
                  rw [answer known, why known.1, Std.LawfulEqCmp.compare_eq_iff_eq.1 sizes]
                  simp

/-- The variable condition is asked of the two terms only. -/
theorem Unfolds.greater (unfolds : Unfolds cmp sig size gt) (wf : s.WellFormed) (hr : r < s.size)
    (hq : q < s.size) :
    s.Ensures (greater cmp r q) fun yes s' => Store.SameTerms s s' ∧
      (s.All (fun t n => n.toNat = size t) → (s.term r).Over sig →
        (yes = true ↔ (s.term r).Covers (s.term q) ∧ gt (s.term r) (s.term q))) := by
  rw [Kbo.greater]
  by_cases equal : r = q
  · rw [if_pos equal]
    subst equal
    refine .pure wf ⟨.refl s, fun _ inSig => ?_⟩
    simp [unfolds.irrefl inSig]
  · rw [if_neg equal]
    refine (Store.Ensures.get wf).bind ?_
    rintro _ s₁ - - ⟨rfl, rfl⟩
    have condition : covers (s₁.occurrences r) (s₁.occurrences q) = true ↔
        (s₁.term r).Covers (s₁.term q) := by
      rw [covers_iff, wf.below.occurrences_eq hr, wf.below.occurrences_eq hq]
      rfl
    split
    · rename_i yes
      refine (unfolds.greaterWithin wf hr hq (Nat.lt_succ_of_lt hr) s₁ wf (.refl s₁)).mono ?_
      rintro answer s₂ - - ⟨same, spec⟩
      refine ⟨same, fun counted inSig => ?_⟩
      rw [spec ⟨counted, inSig⟩, ← condition, yes]
      simp
    · rename_i no
      refine .pure wf ⟨.refl s₁, fun _ _ => ?_⟩
      rw [← condition]
      simp [no]

theorem gt_unfolds (refl : cmp.Reflexive sig) : Unfolds cmp sig Term.size (Gt cmp fun _ _ => True) where
  irrefl := Gt.irrefl refl
  var := not_var_gt
  app_var := gt_var_iff
  app_app := fun _ => by rw [gt_app_iff, true_and]

theorem greater_spec (refl : cmp.Reflexive sig) (wf : s.WellFormed) (hr : r < s.size) (hq : q < s.size) :
    s.Ensures (greater cmp r q) fun yes s' => Store.SameTerms s s' ∧
      (s.Exact → (s.term r).Over sig → (yes = true ↔ (s.term r).Covers (s.term q) ∧
        Gt cmp (fun _ _ => True) (s.term r) (s.term q))) :=
  (gt_unfolds refl).greater wf hr hq

end Kbo

/-! ### What the order says of any comparison of heads -/

namespace Kbo

variable {cmp : HeadComparison} {s t : Term}

/-- The larger term is greater, or of two applications of the same size that differ the one with the greater
head or, with equal heads, the greater argument where they first differ. Sizes are those that fit into a word.
-/
inductive Says (cmp : HeadComparison) : Term → Term → Prop
  | larger {f g : Head} {ss ts : List Term} : (Term.app g ts).wordSize < (Term.app f ss).wordSize →
      Says cmp (.app f ss) (.app g ts)
  | head {f g : Head} {ss ts : List Term} : Term.app f ss ≠ .app g ts →
      (Term.app g ts).wordSize = (Term.app f ss).wordSize → cmp f ss.length g ts.length = some .gt →
      Says cmp (.app f ss) (.app g ts)
  | lex {f g : Head} {pre post post' : List Term} {a b : Term} :
      (Term.app g (pre ++ b :: post')).wordSize = (Term.app f (pre ++ a :: post)).wordSize →
      cmp f (pre ++ a :: post).length g (pre ++ b :: post').length = some .eq → Says cmp a b →
      Says cmp (.app f (pre ++ a :: post)) (.app g (pre ++ b :: post'))
  | var {f : Head} {ss : List Term} {v : Var} : v ∈ (Term.app f ss).vars → Says cmp (.app f ss) (.var v)

theorem Says.ne (h : Says cmp s t) : s ≠ t := by
  induction h with
  | larger less =>
      intro same
      rw [same] at less
      exact Nat.lt_irrefl _ less
  | head differ => exact differ
  | lex _ _ _ ih =>
      intro same
      obtain ⟨rfl, -⟩ := List.cons.inj (List.append_cancel_left (Term.app.inj same).2)
      exact ih rfl
  | var => nofun

theorem says_unfolds : Unfolds cmp .full Term.wordSize (Says cmp) where
  irrefl := fun _ h => h.ne rfl
  var := nofun
  app_var := by
    intro f ss v
    constructor
    · intro h
      cases h with
      | var hv => exact hv
    · exact .var
  app_app := by
    intro f g ss ts differ
    constructor
    · intro h
      cases h with
      | larger less => exact .inl less
      | head _ same greater => exact .inr ⟨same, .inl greater⟩
      | lex same equal down => exact .inr ⟨same, .inr ⟨equal, _, _, _, _, _, rfl, rfl, down⟩⟩
    · rintro (less | ⟨same, greater | ⟨equal, pre, a, b, post, post', rfl, rfl, down⟩⟩)
      · exact .larger less
      · exact .head differ same greater
      · exact .lex same equal down

end Kbo
end OrderedCompletion
