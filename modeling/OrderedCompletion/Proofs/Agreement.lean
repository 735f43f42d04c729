import OrderedCompletion.Proofs.Answers
import OrderedCompletion.Proofs.GroundCompleteness
import OrderedCompletion.Proofs.Lifecycle

/-! Normal forms and answers about equality that a run gives once it is at its end: two terms are equal
exactly if their normal forms are the same term, whatever order, axioms and supply are like. -/

namespace OrderedCompletion

variable {sig : Signature} {gt : Term → Term → Prop} {a b u v w : Term} {yes : Bool}

namespace Engine

variable {o : Order} {ctx : Context} {e e' e₁ e₂ : Engine} {s s' s₁ s₂ : Store} {r : Ref} {eq : Equation}

theorem normalizeOne_exact (h : Decided sig gt ctx.order s e) (wf : s.WellFormed) (hd : s.Denotes r a)
    (ha : a.Over sig) (withheld : e.workspace.supply.Withholds a) :
    Leaves e s (normalizeOne ctx e.rules e.activeEquations r) fun out s' =>
      Reducer.Finds (e.top gt s) s' a out := by
  refine reduceWith_spec fun rd st order hrules heqs workspace memo => ?_
  rw [← workspace] at withheld
  have decided := h.reducer order hrules heqs
  exact (Reducer.normalize_exact decided wf (Reducer.noted_nothing memo) hd ha withheld).mono
    (fun _ _ _ _ _ h => ⟨h.1.later, h.2⟩) fun _ _ _ _ h => h.later

theorem reduce_exact (h : Decided sig gt ctx.order s e) (wf : s.WellFormed) (hd : s.Denotes r a)
    (ha : a.Over sig) :
    Leaves e s (reduce ctx r) fun out s' => Reducer.Finds (e.top gt s) s' a out := by
  rw [reduce]
  refine (ensureUsable_spec wf).thread fun _ e₁ s₁ wf₁ le₁ aside₁ _ => ?_
  have h₁ := h.aside aside₁ wf wf₁ le₁
  refine TermM.Ensures.bind (reserve_withholds wf₁ (hd.mono wf wf₁ le₁)) ?_
  rintro _ e₂ s₂ wf₂ le₂ ⟨aside₂, withheld⟩
  have h₂ := h₁.aside aside₂ wf₁ wf₂ le₂
  refine .bindGet (Leaves.after aside₂ ?_)
  rw [← h.top_eq aside₁ wf wf₁ le₁, ← h₁.top_eq aside₂ wf₁ wf₂ le₂]
  exact normalizeOne_exact h₂ wf₂ (hd.mono wf wf₂ (le₁.trans le₂)) ha withheld

theorem normalForm_exact (h : Decided sig gt ctx.order s e) (wf : s.WellFormed) (hd : s.Denotes r a)
    (ha : a.Over sig) :
    Leaves e s (normalForm ctx r) fun out s' => Reducer.Finds (e.top gt s) s' a out := by
  rw [normalForm]
  refine (ensureUsable_spec wf).thread fun _ e₁ s₁ wf₁ le₁ aside₁ _ => ?_
  have hd₁ := hd.mono wf wf₁ le₁
  refine .bindGet (.bindLift (Store.isGround_spec wf₁ hd₁) fun ground s₂ wf₂ le₂ _ => ?_)
  have le := le₁.trans le₂
  have reduces : Leaves e₁ s₂ (reduce ctx r) fun out s' => Reducer.Finds (e.top gt s) s' a out := by
    rw [← h.top_eq aside₁ wf wf₂ le]
    exact reduce_exact (h.aside aside₁ wf wf₂ le) wf₂ (hd.mono wf wf₂ le) ha
  have refuses : ∀ failure, Leaves e₁ s₂ (do fail ctx failure; reduce ctx r) fun out s' =>
      Reducer.Finds (e.top gt s) s' a out := by
    intro failure
    refine TermM.Ensures.bind (fail_spec (α := PUnit) (Q := fun _ _ _ => False) wf₂ (.refl e₁)) ?_
    exact fun _ _ _ _ _ no => no.elim
  dsimp only
  split
  · split
    · exact refuses _
    · exact reduces
  · split
    · exact refuses _
    · exact reduces

/-- A run at its end is found to be there. -/
theorem checkTerminal_ended (ended : e.status = .complete ∨ e.status = .groundComplete) (wf : s.WellFormed) :
    Leaves e s (checkTerminal ctx) fun yes _ => yes = true := by
  rw [checkTerminal]
  refine .bindGet ?_
  rcases ended with done | done
  · simp only [done]
    exact .pure wf ⟨.refl e, rfl⟩
  · simp only [done]
    exact .pure wf ⟨.refl e, rfl⟩

/-- At the end of a run the answer depends on the normal forms only. -/
theorem equalFrom_exact {fuel taken : Nat} {c : Term × Term} (h : Decided sig gt ctx.order s e)
    (ended : e.status = .complete ∨ e.status = .groundComplete) (wf : s.WellFormed)
    (clear : Clear sig e.workspace.supply s eq c) :
    Leaves e s (equalFrom ctx eq fuel taken) fun yes _ => ∃ x y, Term.NormalForm (e.top gt s) c.1 x ∧
      Term.NormalForm (e.top gt s) c.2 y ∧ (yes = true ↔ x = y) := by
  cases fuel with
  | zero => exact .throw wf (.refl e)
  | succ fuel =>
      rw [equalFrom]
      refine (normalizeSides_exact h wf clear).thread fun sides e₁ s₁ wf₁ le₁ aside₁ normal => ?_
      obtain ⟨x, y, means, left, right⟩ := normal.exists_means
      have same := Equation.isTrivial_iff means wf₁
      split
      · rename_i isTrivial
        exact .pure wf₁ ⟨x, y, left, right, iff_of_true rfl (same.1 isTrivial)⟩
      · rename_i differ
        rw [← aside₁.status] at ended
        refine (checkTerminal_ended ended wf₁).thread fun yes e₂ s₂ wf₂ le₂ _ isEnd => ?_
        rw [if_pos isEnd]
        exact .pure wf₂ ⟨x, y, left, right, iff_of_false Bool.false_ne_true (differ ∘ same.2)⟩

theorem equal_exact (h : Decided sig gt ctx.order s e)
    (ended : e.status = .complete ∨ e.status = .groundComplete) (wf : s.WellFormed)
    (means : s.Means eq (a, b)) (ha : a.Over sig) (hb : b.Over sig) :
    Leaves e s (equal ctx eq) fun yes _ => ∃ x y, Term.NormalForm (e.top gt s) a x ∧
      Term.NormalForm (e.top gt s) b y ∧ (yes = true ↔ x = y) := by
  rw [equal]
  refine (ensureUsable_spec wf).thread fun _ e₁ s₁ wf₁ le₁ aside₁ _ => ?_
  have means₁ := Equation.means_mono means wf wf₁ le₁
  refine TermM.Ensures.bind (reserve_withholds wf₁ means₁.1) ?_
  rintro _ e₂ s₂ wf₂ le₂ ⟨aside₂, withheld⟩
  have means₂ := Equation.means_mono means₁ wf₁ wf₂ le₂
  refine Leaves.after aside₂ (TermM.Ensures.bind (reserve_withholds wf₂ means₂.2) ?_)
  rintro _ e₃ s₃ wf₃ le₃ ⟨aside₃, withheld'⟩
  refine .bindModify ?_
  have aside := aside₁.trans (aside₂.trans (aside₃.trans (setStop_aside false)))
  have le := le₁.trans (le₂.trans le₃)
  have clear : Clear sig (e₃.setStop false).workspace.supply s₃ eq (a, b) :=
    ⟨Equation.means_mono means₂ wf₂ wf₃ le₃, ha, hb, withheld.later aside₃.later, withheld'⟩
  refine Leaves.after (aside₃.trans (setStop_aside false)) ?_
  rw [← h.top_eq aside wf wf₃ le]
  rw [← aside.status] at ended
  exact equalFrom_exact (h.aside aside wf wf₃ le) ended wf₃ clear

end Engine

namespace Problem

open Engine

variable {p : Problem} {cmp : HeadComparison} {kind : OrderKind} {ctx : Context}
variable {e e' : Engine} {s s' : Store} {r : Ref} {eq : Equation}

/-- The states and stores that further calls lead to from given ones. Between calls terms may be added to the
store one by one. -/
inductive Onward (p : Problem) (sig : Signature) (e : Engine) (s : Store) : Engine → Store → Prop
  | refl : Onward p sig e s e s
  | intern {e' : Engine} {s' : Store} (t : Term) : Onward p sig e s e' s' → t.Over .full →
      Onward p sig e s e' (Store.ofTerm t s').2
  | call {e' : Engine} {s' : Store} (c : Call) (ctx : Context) : Onward p sig e s e' s' →
      ctx.order = p.order → (∀ r ∈ c.refs, ∃ a, s'.Denotes r a ∧ a.Over sig) →
      Onward p sig e s (c.run ctx e' s').1 (c.run ctx e' s').2

theorem Onward.runs (h : p.Onward sig e s e' s') (runs : p.Runs sig e s) : p.Runs sig e' s' := by
  induction h with
  | refl => exact runs
  | intern t _ full ih => exact .intern t ih full
  | call c ctx _ same known ih => exact .call c ctx ih same known

theorem Onward.oneWay (h : p.Onward sig e s e' s') : OneWay e e' := by
  induction h with
  | refl => exact (Settled.refl e).oneWay
  | intern _ _ _ ih => exact ih
  | call c _ _ _ _ ih => exact ih.trans c.oneWay

theorem Onward.grown (h : p.Onward sig e s e' s') (grows : p.order.Grows) : Store.Grown s s' := by
  induction h with
  | refl => exact .refl s
  | intern t _ _ ih => exact ih.trans (Store.ofTerm_grows t _)
  | @call e' s' c ctx _ same _ ih =>
      have grows' : ctx.order.Grows := same ▸ grows
      exact ih.trans (grows'.call c e' s')

/-- A run with one of the two orders from a store that was filled term by term. Nothing is asked of how heads
compare, of the axioms, the configuration or the supply. -/
structure Attains (p : Problem) (cmp : HeadComparison) (kind : OrderKind) (e : Engine) (s : Store) :
    Prop where
  order : p.order = .ofKind cmp kind
  posed : p.Posed .full
  made : Store.Grown .empty p.store
  runs : p.Runs .full e s

theorem Attains.judges (h : p.Attains cmp kind e s) :
    p.order.Judges WordSized .full (Order.Tells cmp kind) :=
  h.order ▸ Order.ofKind_judges cmp kind

theorem Attains.onward (h : p.Attains cmp kind e s) (later : p.Onward .full e s e' s') :
    p.Attains cmp kind e' s' :=
  ⟨h.order, h.posed, h.made, later.runs h.runs⟩

theorem Attains.kept (h : p.Attains cmp kind e s) : p.Kept .conserving e s := by
  have obeys : p.order.Obeys .conserving := h.order ▸ Order.ofKind_conserves cmp kind
  exact Runs.kept (G := .conserving) h.runs h.posed obeys fun no => no.elim

/-- All node counts are right. -/
theorem Attains.sized (h : p.Attains cmp kind e s) (grown : Store.Grown s s') (wf : s'.WellFormed) :
    s'.All WordSized :=
  Store.empty_counted.grown ((h.made.trans (h.runs.grown h.judges.grows)).trans grown) wf.below

theorem Attains.decided (h : p.Attains cmp kind e s) :
    Decided .full (Order.Tells cmp kind) (p.order.settled WordSized (Order.Tells cmp kind)) s e := by
  have kept := h.kept
  have fine := kept.presents.fine
  refine ⟨h.judges.decides, h.judges.blind, fine.equations, fine.rules, fun d hd => ?_⟩
  exact (fine.descends d.1 d.2 (Store.mem_sides.1 hd)).2.2.2

/-- What an action of a run comes to if the order goes by the relation in all stores, it comes to anyway. -/
theorem Attains.outcome {α : Type} {x : Context → EngineM α} {out : α} {P : α → Store → Prop}
    (h : p.Attains cmp kind e s) (same : ctx.order = p.order)
    (tracks : ∀ (ctx : Context) (o : Order), ctx.order.Tracks WordSized o →
      TermM.Tracks WordSized (x ctx) (x (ctx.withOrder o)))
    (leaves : ∀ ctx : Context, Decided .full (Order.Tells cmp kind) ctx.order s e → Leaves e s (x ctx) P)
    (ok : answer (x ctx) e s = .ok out) : P out (after (x ctx) e s).2 := by
  let settled : Context := ctx.withOrder (p.order.settled WordSized (Order.Tells cmp kind))
  obtain ⟨wf, -, reached⟩ := leaves settled h.decided
  -- the store at the end shows that the answers were the actual ones
  have follows : settled.order.Tracks WordSized p.order := h.judges.reads.tracked
  obtain ⟨grown, agrees⟩ := tracks settled p.order follows e s
  have actual := agrees (h.sized grown wf)
  have back : settled.withOrder p.order = ctx := by rw [← same]
  rw [back] at actual
  rw [answer, actual] at ok
  rw [after, actual]
  rw [ok] at reached
  exact reached.2

/-- Some query for the normal form of a term succeeds from here on, and this is its answer. -/
def Normalizes (p : Problem) (e : Engine) (s : Store) (a u : Term) : Prop :=
  ∃ e' s' ctx r out, p.Onward .full e s e' s' ∧ ctx.order = p.order ∧ s'.Denotes r a ∧
    answer (normalForm ctx r) e' s' = .ok out ∧ (after (normalForm ctx r) e' s').2.term out = u

/-- Some query about the equality of two terms succeeds from here on, and this is its answer. -/
def Compares (p : Problem) (e : Engine) (s : Store) (a b : Term) (yes : Bool) : Prop :=
  ∃ e' s' ctx eq, p.Onward .full e s e' s' ∧ ctx.order = p.order ∧ s'.Means eq (a, b) ∧
    answer (equal ctx eq) e' s' = .ok yes

/-- At the end of a run all further states normalize in the same way. -/
theorem Attains.top_eq (h : p.Attains cmp kind e s)
    (ended : e.status = .complete ∨ e.status = .groundComplete) (later : p.Onward .full e s e' s') :
    (e'.status = .complete ∨ e'.status = .groundComplete) ∧
      e'.top (Order.Tells cmp kind) s' = e.top (Order.Tells cmp kind) s := by
  have h' := h.onward later
  have settled := later.oneWay (by rcases ended with done | done <;> simp [done])
  have unfailing := h'.kept.presents.unfailing.trans h.kept.presents.unfailing.symm
  have active : e'.activeEquations = e.activeEquations := by
    rw [activeEquations, activeEquations, unfailing, settled.equations]
  have wf := h.kept.wellFormed
  have wf' := h'.kept.wellFormed
  have le := (later.grown h.judges.grows).le
  refine ⟨by rwa [settled.status], ?_⟩
  have decided := h.decided
  rw [top, top, active, settled.rules, decided.rules.sides_eq wf wf' le, decided.active.sides_eq wf wf' le]

theorem Normalizes.normalForm (h : p.Attains cmp kind e s)
    (ended : e.status = .complete ∨ e.status = .groundComplete) (answers : p.Normalizes e s a u) :
    Term.NormalForm (e.top (Order.Tells cmp kind) s) a u := by
  obtain ⟨e', s', ctx, r, out, later, same, hd, ok, rfl⟩ := answers
  have h' := h.onward later
  have wf' := h'.kept.wellFormed
  obtain ⟨u, hu, normal⟩ := h'.outcome same (fun _ _ tracks => normalForm_tracks tracks r)
    (fun _ decided => normalForm_exact decided wf' hd (hd.over_full wf')) ok
  rw [(h.top_eq ended later).2] at normal
  rwa [hu.2]

theorem Compares.normalForms (h : p.Attains cmp kind e s)
    (ended : e.status = .complete ∨ e.status = .groundComplete) (answers : p.Compares e s a b yes) :
    ∃ x y, Term.NormalForm (e.top (Order.Tells cmp kind) s) a x ∧
      Term.NormalForm (e.top (Order.Tells cmp kind) s) b y ∧ (yes = true ↔ x = y) := by
  obtain ⟨e', s', ctx, eq, later, same, means, ok⟩ := answers
  have h' := h.onward later
  have wf' := h'.kept.wellFormed
  obtain ⟨ended', top⟩ := h.top_eq ended later
  have normal := h'.outcome same (fun _ _ tracks => equal_tracks tracks eq)
    (fun _ decided => equal_exact decided ended' wf' means (means.1.over_full wf') (means.2.over_full wf')) ok
  rwa [top] at normal

/-- At the end of a run two terms are answered to be equal exactly if they are answered to have the same
normal form, and a normal form is its own. -/
theorem Attains.queries_agree (h : p.Attains cmp kind e s)
    (ended : e.status = .complete ∨ e.status = .groundComplete) :
    (∀ a b u v yes, p.Normalizes e s a u → p.Normalizes e s b v → p.Compares e s a b yes →
      (yes = true ↔ u = v)) ∧
    ∀ a u w, p.Normalizes e s a u → p.Normalizes e s u w → w = u := by
  constructor
  · intro a b u v yes left right compares
    obtain ⟨x, y, hx, hy, answer⟩ := compares.normalForms h ended
    rw [(left.normalForm h ended).unique hx, (right.normalForm h ended).unique hy]
    exact answer
  · intro a u w normal again
    exact (again.normalForm h ended).unique (.refl (normal.normalForm h ended).fixed)

theorem grown_firstOf {o : Order} {pairs : List (Term × Term)} : Store.Grown .empty (firstOf o pairs).store :=
  Store.listOfTerms_grows pairs .empty

theorem commutative_attains : commutative.Attains (Precedence.compare letters (.ranking [])) .lpo
    commutativeEnd.1 commutativeEnd.2 where
  order := rfl
  posed := commutative_posed.full
  made := grown_firstOf
  runs := .call .complete (lettersContext commutative.order) .start rfl nofun

/-- From the end of the run on it two words that differ in the order of their letters have the same normal
form, and are always answered to be equal. -/
theorem queries_agree_commutative :
    (∀ yes, commutative.Compares commutativeEnd.1 commutativeEnd.2 (word [letterA, letterB])
      (word [letterB, letterA]) yes → yes = true) ∧
    ∃ u, commutative.Normalizes commutativeEnd.1 commutativeEnd.2 (word [letterA, letterB]) u ∧
      ∀ w, commutative.Normalizes commutativeEnd.1 commutativeEnd.2 u w → w = u := by
  have outcome : commutativeEnd.1.status = .groundComplete ∧
      (6 < commutativeEnd.2.size ∧ commutativeEnd.2.term 6 = word [letterA, letterB]) ∧
      (7 < commutativeEnd.2.size ∧ commutativeEnd.2.term 7 = word [letterB, letterA]) ∧
      answer (normalForm (lettersContext commutative.order) 6) commutativeEnd.1 commutativeEnd.2 = .ok 6 ∧
      answer (normalForm (lettersContext commutative.order) 7) commutativeEnd.1 commutativeEnd.2 = .ok 6 ∧
      (after (normalForm (lettersContext commutative.order) 6) commutativeEnd.1 commutativeEnd.2).2.term 6 =
        word [letterA, letterB] ∧
      (after (normalForm (lettersContext commutative.order) 7) commutativeEnd.1 commutativeEnd.2).2.term 6 =
        word [letterA, letterB] := by
    decide +kernel
  obtain ⟨done, ab, ba, forth, back, sameForth, sameBack⟩ := outcome
  obtain ⟨agree, stable⟩ := commutative_attains.queries_agree (.inr done)
  have left : commutative.Normalizes commutativeEnd.1 commutativeEnd.2 (word [letterA, letterB])
      (word [letterA, letterB]) :=
    ⟨_, _, lettersContext commutative.order, 6, 6, .refl, rfl, ab, forth, sameForth⟩
  have right : commutative.Normalizes commutativeEnd.1 commutativeEnd.2 (word [letterB, letterA])
      (word [letterA, letterB]) :=
    ⟨_, _, lettersContext commutative.order, 7, 6, .refl, rfl, ba, back, sameBack⟩
  refine ⟨fun yes compares => ?_, _, left, fun w => stable _ _ w left⟩
  exact (agree _ _ _ _ yes left right compares).2 rfl

end Problem
end OrderedCompletion
