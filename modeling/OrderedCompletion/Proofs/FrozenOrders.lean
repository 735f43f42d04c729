import OrderedCompletion.Proofs.Answers
import OrderedCompletion.Proofs.Thawing

/-! What becomes of the orders when the terms that they compare are frozen. Rigid variables are equal to
themselves and incomparable with all other heads. -/

namespace OrderedCompletion

variable {symbols : SymbolTable} {p : Precedence} {cmp : HeadComparison} {f g : Head} {ss ts : List Term}
variable {s t u : Term} {v w : Var}

namespace Term

theorem Over.arg {sig : Signature} {a : Term} (h : (Term.app f ss).Over sig) (ha : a ∈ ss) : a.Over sig :=
  (over_app_iff.1 h).2 a ha

theorem map_freeze_inj (hs : ∀ a ∈ ss, a.Over .plain) (ht : ∀ b ∈ ts, b.Over .plain) :
    ss.map freeze = ts.map freeze ↔ ss = ts := by
  have whole : (app (.symbol ⟨0⟩) ss).freeze = (app (.symbol ⟨0⟩) ts).freeze ↔ _ :=
    freeze_inj (.app trivial hs) (.app trivial ht)
  simpa using whole

theorem size_freeze : t.freeze.size = t.size := by
  rw [freeze_eq_subst, size_subst]
  simp

theorem wordSize_freeze : t.freeze.wordSize = t.wordSize := by
  rw [wordSize, wordSize, size_freeze]

end Term

open Term

/-- Lists of terms that are frozen first differ where they did before. -/
theorem lexGt_map_freeze {gt gt' : Term → Term → Prop} (hs : ∀ a ∈ ss, a.Over .plain)
    (ht : ∀ b ∈ ts, b.Over .plain) (same : ∀ a ∈ ss, ∀ b ∈ ts, gt a.freeze b.freeze ↔ gt' a b) :
    LexGt gt (ss.map freeze) (ts.map freeze) ↔ LexGt gt' ss ts := by
  constructor
  · rintro ⟨pre, a, b, post, post', left, right, greater⟩
    obtain ⟨pre₁, rest₁, rfl, first, rest⟩ := List.map_eq_append_iff.1 left
    obtain ⟨a, post₁, rfl, rfl, -⟩ := List.map_eq_cons_iff.1 rest
    obtain ⟨pre₂, rest₂, rfl, second, rest⟩ := List.map_eq_append_iff.1 right
    obtain ⟨b, post₂, rfl, rfl, -⟩ := List.map_eq_cons_iff.1 rest
    have alike : pre₁ = pre₂ :=
      (map_freeze_inj (fun c hc => hs c (by simp [hc])) fun c hc => ht c (by simp [hc])).1
        (first.trans second.symm)
    subst alike
    exact ⟨pre₁, a, b, post₁, post₂, rfl, rfl, (same a (by simp) b (by simp)).1 greater⟩
  · rintro ⟨pre, a, b, post, post', rfl, rfl, greater⟩
    refine ⟨pre.map freeze, a.freeze, b.freeze, post.map freeze, post'.map freeze, by simp, by simp, ?_⟩
    exact (same a (by simp) b (by simp)).2 greater

theorem beats_map_freeze {gt gt' : Term → Term → Prop} (hs : ∀ a ∈ ss, a.Over .plain)
    (ht : ∀ b ∈ ts, b.Over .plain) (same : ∀ a ∈ ss, ∀ b ∈ ts, gt a.freeze b.freeze ↔ gt' a b) :
    Beats cmp gt f (ss.map freeze) g (ts.map freeze) ↔ Beats cmp gt' f ss g ts := by
  rw [Beats, Beats, List.length_map, List.length_map, lexGt_map_freeze hs ht same]

namespace Precedence

/-- A rigid variable is greater than no head. -/
theorem compare_frozen_left {m n : Nat} : compare symbols p (.frozen v) m g n ≠ some .gt := by
  cases g with
  | symbol c => simp [compare]
  | frozen w => simp [compare]

end Precedence

namespace Lpo

/-- A rigid variable is greater than nothing. -/
theorem not_rigid_says : ¬ Says (Precedence.compare symbols p) (.app (.frozen v) []) t := by
  intro h
  generalize rigid : Term.app (.frozen v) [] = s at h
  cases h with
  | arg ha => simp_all
  | inside _ ha => simp_all
  | head _ greater =>
      obtain ⟨rfl, rfl⟩ := app.inj rigid
      exact Precedence.compare_frozen_left greater
  | lex => simp at rigid

theorem says_var_iff : Says cmp (.app f ss) (.var w) ↔ ∃ a ∈ ss, a = .var w ∨ Says cmp a (.var w) := by
  constructor
  · intro h
    cases h with
    | arg ha => exact ⟨_, ha, .inl rfl⟩
    | inside _ ha h => exact ⟨_, ha, .inr h⟩
  · rintro ⟨a, ha, rfl | h⟩
    · exact .arg ha
    · exact .inside nofun ha h

/-- An application of a symbol beats no rigid variable. -/
theorem not_beats_rigid {gt : Term → Term → Prop} {c : Symbol} :
    ¬ Beats (Precedence.compare symbols p) gt (.symbol c) ss (.frozen w) ts := by
  simp [Beats, Precedence.compare]

/-- Frozen terms are compared as the terms are, by induction on the sizes of both. -/
theorem says_freeze_iff (hs : s.Over .plain) (ht : t.Over .plain) :
    Says (Precedence.compare symbols p) s.freeze t.freeze ↔ Says (Precedence.compare symbols p) s t := by
  induction size : sizeOf s + sizeOf t using Nat.strong_induction_on generalizing s t with
  | _ n ih =>
      cases s with
      | missing r => exact absurd hs not_over_missing
      | var v =>
          have left : ¬ Says (Precedence.compare symbols p) (var v).freeze t.freeze := not_rigid_says
          have right : ¬ Says (Precedence.compare symbols p) (.var v) t := nofun
          exact iff_of_false left right
      | app f ss =>
          have smaller : ∀ a ∈ ss, sizeOf a < sizeOf (app f ss) := fun a ha => sizeOf_lt ha
          -- the arguments of the first term against all of the second
          have inside : (∃ a ∈ ss.map freeze, a = t.freeze ∨ Says (Precedence.compare symbols p) a t.freeze) ↔
              ∃ a ∈ ss, a = t ∨ Says (Precedence.compare symbols p) a t := by
            simp only [List.mem_map, exists_exists_and_eq_and]
            refine exists_congr fun a => and_congr_right fun ha => ?_
            have less := smaller a ha
            rw [freeze_inj (hs.arg ha) ht, ih _ (by omega) (hs.arg ha) ht rfl]
          cases t with
          | missing r => exact absurd ht not_over_missing
          | var w =>
              cases f with
              | frozen v => exact (over_app_iff.1 hs).1.elim
              | symbol c =>
                  rw [says_var_iff, ← inside, freeze_app, freeze_var, says_unfolds.app_app (by simp), or_iff_left]
                  rintro ⟨beats, -⟩
                  exact not_beats_rigid beats
          | app g ts =>
              by_cases same : app f ss = app g ts
              · rw [same]
                exact iff_of_false (fun h => h.ne rfl) fun h => h.ne rfl
              have apart : (app f ss).freeze ≠ (app g ts).freeze := fun alike => same ((freeze_inj hs ht).1 alike)
              have larger : ∀ b ∈ ts, sizeOf b < sizeOf (app g ts) := fun b hb => sizeOf_lt hb
              have beats : Beats (Precedence.compare symbols p) (Says (Precedence.compare symbols p)) f
                  (ss.map freeze) g (ts.map freeze) ↔
                    Beats (Precedence.compare symbols p) (Says (Precedence.compare symbols p)) f ss g ts := by
                apply beats_map_freeze (fun a => hs.arg) (fun b => ht.arg)
                intro a ha b hb
                have lessA := smaller a ha
                have lessB := larger b hb
                exact ih _ (by omega) (hs.arg ha) (ht.arg hb) rfl
              have below : (∀ b ∈ ts.map freeze, Says (Precedence.compare symbols p) (app f ss).freeze b) ↔
                  ∀ b ∈ ts, Says (Precedence.compare symbols p) (app f ss) b := by
                rw [List.forall_mem_map]
                refine forall₂_congr fun b hb => ?_
                have less := larger b hb
                exact ih _ (by omega) hs (ht.arg hb) rfl
              rw [says_unfolds.app_app same, ← inside, ← beats, ← below]
              rw [freeze_app, freeze_app] at apart ⊢
              exact says_unfolds.app_app apart

end Lpo

namespace Kbo

/-- What is greater by sizes and heads stays so. A variable becomes a constant, than which every application
that it occurs in is larger. -/
theorem Says.freeze (hs : s.Over .plain) (ht : t.Over .plain) (small : s.size < 2 ^ 32) (h : Says cmp s t) :
    Says cmp s.freeze t.freeze := by
  induction h with
  | @larger f g ss ts less =>
      rw [← wordSize_freeze (t := .app f ss), ← wordSize_freeze (t := .app g ts)] at less
      rw [freeze_app, freeze_app] at less ⊢
      exact .larger less
  | @head f g ss ts differ same greater =>
      have apart : (Term.app f ss).freeze ≠ (Term.app g ts).freeze := fun alike => differ ((freeze_inj hs ht).1 alike)
      rw [← wordSize_freeze (t := .app f ss), ← wordSize_freeze (t := .app g ts)] at same
      rw [freeze_app, freeze_app] at same apart ⊢
      exact .head apart same (by simpa using greater)
  | @lex f g pre post post' a b same equal _ ih =>
      have less : a.size < (Term.app f (pre ++ a :: post)).size := size_lt_of_mem (by simp)
      have inner := ih (hs.arg (by simp)) (ht.arg (by simp)) (less.trans small)
      rw [← wordSize_freeze (t := .app f (pre ++ a :: post)),
        ← wordSize_freeze (t := .app g (pre ++ b :: post'))] at same
      simp only [freeze_app, List.map_append, List.map_cons] at same ⊢
      exact .lex same (by simpa using equal) inner
  | @var f ss v hv =>
      obtain ⟨a, ha, -⟩ := mem_vars_app.1 hv
      have more : 1 < (Term.app f ss).wordSize := by
        rw [wordSize, Nat.mod_eq_of_lt small]
        exact Nat.lt_of_le_of_lt size_pos (size_lt_of_mem ha)
      rw [← wordSize_freeze] at more
      rw [freeze_app] at more ⊢
      exact .larger more

theorem Tells.freeze (hs : s.Over .plain) (ht : t.Over .plain) (small : s.size < 2 ^ 32) (h : Tells cmp s t) :
    Tells cmp s.freeze t.freeze :=
  ⟨freeze_isGround.covers, h.2.freeze hs ht small⟩

end Kbo

namespace Store

open StoreM

variable {s s' : Store} {r q : Ref}

theorem freezeWithin_grows (n : Nat) (r : Ref) : Grows (freezeWithin n r) := by
  induction n generalizing r with
  | zero => exact .pure r
  | succ n ih =>
      rw [freezeWithin]
      refine .bind .get fun s => ?_
      split
      · exact .pure _
      · refine .bind .get fun s => ?_
        extract_lets note
        have noted : ∀ q, Grows (note q) := fun q => .bind (.still fun _ => rfl) fun _ => .pure q
        split
        · exact .bind (intern_grows _) noted
        · exact .bind (.mapM ih) fun _ => .bind (intern_grows _) noted
        · exact .bind (.pure _) noted

theorem freeze_grows (r : Ref) : Grows (freeze r) := .bind .get fun _ => freezeWithin_grows _ r

theorem mapM_grows {ε α β : Type} {f : α → ExceptT ε StoreM β} {as : List α} (h : ∀ a, Grows (f a).run) :
    Grows (as.mapM f).run := by
  induction as with
  | nil => exact .pure _
  | cons a as ih =>
      rw [List.mapM_cons]
      exact Grows.bindExcept (h a) fun _ => Grows.bindExcept ih fun _ => .pure _

theorem unfreezeWithin_grows (n : Nat) (r : Ref) : Grows (unfreezeWithin n r).run := by
  have got : Grows (getThe Store : ExceptT TermError StoreM Store).run := .still fun _ => rfl
  have lifted : ∀ node, Grows (liftM (intern node) : ExceptT TermError StoreM Ref).run :=
    fun node => .bind (intern_grows node) fun _ => .pure _
  have refused : ∀ e, Grows (throw e : ExceptT TermError StoreM Ref).run := fun e => .pure _
  induction n generalizing r with
  | zero => exact .pure _
  | succ n ih =>
      rw [unfreezeWithin]
      refine Grows.bindExcept got fun s => ?_
      split
      · exact .pure _
      · refine Grows.bindExcept got fun s => ?_
        extract_lets note
        have noted : ∀ q, Grows (note q).run := fun q => Grows.bindExcept (.still fun _ => rfl) fun _ => .pure _
        split
        · exact Grows.bindExcept (refused _) noted
        · exact Grows.bindExcept (lifted _) noted
        · exact Grows.bindExcept (mapM_grows ih) fun _ => Grows.bindExcept (lifted _) noted
        · exact Grows.bindExcept (refused _) noted

theorem unfreeze_grows (r : Ref) : Grows (unfreeze r).run :=
  Grows.bindExcept (.still fun _ => rfl) fun _ => unfreezeWithin_grows _ r

theorem Op.run_grows (op : Op) : Grows op.run := by
  cases op with
  | var v => exact .bind (intern_grows _) fun _ => .pure _
  | app f args => exact .bind (intern_grows _) fun _ => .pure _
  | rigid v => exact .bind (intern_grows _) fun _ => .pure _
  | resolve r => exact .bind .get fun _ => .pure _
  | sizeOf r => exact .bind .get fun _ => .pure _
  | vars r => exact .bind (vars_grows r) fun _ => .pure _
  | isGround r => exact .bind (isGround_grows r) fun _ => .pure _
  | occurs v r => exact .bind (occurs_grows v r) fun _ => .pure _
  | contains r u => exact .bind .get fun _ => .pure _
  | subtermAt r p => exact .bind .get fun _ => .pure _
  | replaceAt r p u => exact .bind (replaceAt_grows r p u) fun _ => .pure _
  | appPositions r => exact .bind .get fun _ => .pure _
  | freeze r => exact .bind (freeze_grows r) fun _ => .pure _
  | unfreeze r => exact .bind (unfreeze_grows r) fun _ => .pure _

theorem Evolves.grown (run : Evolves s s') : Grown s s' := by
  induction run with
  | refl => exact .refl s
  | tail _ step ih =>
      obtain ⟨op, -, rfl⟩ := step
      exact ih.trans (op.run_grows _)

end Store

namespace Order

/-- Is one stored term greater than another one once both of them are frozen? -/
def greaterFrozen (o : Order) (r q : Ref) : StoreM Bool := do
  let r ← Store.freeze r
  let q ← Store.freeze q
  o.greater r q

variable {o : Order} {gt : Term → Term → Prop} {store : Store} {r q : Ref}

theorem run_bind_two {α β γ : Type} (x : StoreM α) (y : StoreM β) (f : α → β → StoreM γ) :
    (do let a ← x; let b ← y; f a b) store = f (x store).1 (y (x store).2).1 (y (x store).2).2 := rfl

/-- An order that judges terms judges the frozen ones. -/
theorem Judges.greaterFrozen (judges : o.Judges WordSized .full gt) (faithful : store.Faithful)
    (counted : store.Counted) (hr : store.Denotes r s) (hq : store.Denotes q t) :
    (o.greaterFrozen r q store).1 = true ↔ gt s.freeze t.freeze := by
  have wf := faithful.toWellFormed
  obtain ⟨wf₁, le₁, faithful₁, hr₁⟩ := Store.freeze_spec faithful hr
  obtain ⟨wf₂, le₂, -, hq₂⟩ := Store.freeze_spec faithful₁ (hq.mono wf wf₁ le₁)
  have counted₁ := counted.grown (Store.freeze_grows r _) wf₁.below
  have counted₂ := counted₁.grown (Store.freeze_grows q _) wf₂.below
  have hr₂ := hr₁.mono wf₁ wf₂ le₂
  rw [Order.greaterFrozen, run_bind_two]
  exact (judges.answers wf₂ counted₂ hr₂ hq₂ (hr₂.over_full wf₂) (hq₂.over_full wf₂)).2.2

variable (symbols p)

/-- The lexicographic path order answers about frozen terms as about the terms themselves, and what is greater
in the Knuth-Bendix order stays so, for terms without rigid variables and whatever the store was asked before. -/
theorem greaterFrozen_agrees (before : Store.Evolves .empty store) (hr : r < store.size) (hq : q < store.size)
    (hs : (store.term r).Over .plain) (ht : (store.term q).Over .plain) :
    ((ofKind (Precedence.compare symbols p) .lpo).greaterFrozen r q store).1 =
      ((ofKind (Precedence.compare symbols p) .lpo).greater r q store).1 ∧
    ((store.term r).size < 2 ^ 32 → (store.term q).size < 2 ^ 32 →
      ((ofKind (Precedence.compare symbols p) .kbo).greater r q store).1 = true →
      ((ofKind (Precedence.compare symbols p) .kbo).greaterFrozen r q store).1 = true) := by
  have faithful := (Store.empty_faithful.evolves before).1
  have wf := faithful.toWellFormed
  have counted := Store.empty_counted.grown before.grown wf.below
  have hr := Store.denotes_term hr
  have hq := Store.denotes_term hq
  have answers : ∀ kind, ((ofKind (Precedence.compare symbols p) kind).greater r q store).1 = true ↔
      Tells (Precedence.compare symbols p) kind (store.term r) (store.term q) := fun kind =>
    ((ofKind_judges _ kind).answers wf counted hr hq (hr.over_full wf) (hq.over_full wf)).2.2
  have frozen := fun kind => (ofKind_judges (Precedence.compare symbols p) kind).greaterFrozen faithful counted hr hq
  constructor
  · rw [Bool.eq_iff_iff, answers .lpo, frozen .lpo]
    exact Lpo.says_freeze_iff hs ht
  · intro small _
    rw [answers .kbo, frozen .kbo]
    exact Kbo.Tells.freeze hs ht small

section
open Store.Usage

theorem greaterFrozen_agrees_frozenVariable :
    Store.Evolves .empty frozenVariable.store ∧ 1 < frozenVariable.store.size ∧
    (frozenVariable.store.term 1).Over .plain ∧ (frozenVariable.store.term 0).Over .plain ∧
    (frozenVariable.store.term 1).size < 2 ^ 32 ∧ (frozenVariable.store.term 0).size < 2 ^ 32 ∧
    ((ofKind (Precedence.compare fiveNames .empty) .lpo).greaterFrozen 1 0 frozenVariable.store).1 = true ∧
    ((ofKind (Precedence.compare fiveNames .empty) .kbo).greaterFrozen 1 0 frozenVariable.store).1 = true := by
  have before := evolves_frozenVariable
  have known : 0 < frozenVariable.store.size ∧ 1 < frozenVariable.store.size := by decide
  have applied : frozenVariable.store.term 1 = .app (.symbol ⟨0⟩) [.var 7, .var 7] := by decide
  have argument : frozenVariable.store.term 0 = .var 7 := by decide
  have plain : (frozenVariable.store.term 1).Over .plain := by
    rw [applied]
    refine .app trivial fun a ha => ?_
    rw [List.eq_of_mem_replicate (n := 2) ha]
    exact .var 7
  have plain' : (frozenVariable.store.term 0).Over .plain := argument ▸ .var 7
  have small : (frozenVariable.store.term 1).size < 2 ^ 32 := by rw [applied]; decide
  have small' : (frozenVariable.store.term 0).size < 2 ^ 32 := by rw [argument]; decide
  have yes : ((ofKind (Precedence.compare fiveNames .empty) .lpo).greater 1 0 frozenVariable.store).1 = true ∧
      ((ofKind (Precedence.compare fiveNames .empty) .kbo).greater 1 0 frozenVariable.store).1 = true := by
    decide +kernel
  have agrees := greaterFrozen_agrees fiveNames .empty before known.2 known.1 plain plain'
  exact ⟨before, known.2, plain, plain', small, small', agrees.1.trans yes.1, agrees.2 small small' yes.2⟩

end

/-- What is greater in the Knuth-Bendix order once it is frozen need not have been so before. -/
example : (kbo fiveNames []).test (low (.var 0)) (.var 1) = false ∧
    (kbo fiveNames []).test (low (.var 0)).freeze (Term.var 1).freeze = true := by
  decide +kernel

end Order
end OrderedCompletion
