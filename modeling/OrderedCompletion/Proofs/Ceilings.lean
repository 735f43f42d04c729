import OrderedCompletion.Proofs.Growth
import OrderedCompletion.Proofs.Judging
import OrderedCompletion.Proofs.Normalization

/-! What normalization comes to if no use of a rule or an equation draws variables: the term that passes lead
to, or the first outcome of a pass that is too large and was not noted before. -/

namespace OrderedCompletion

namespace Term

variable {top : Term → Term} {X : Term → Prop} {c : Nat} {a u : Term}

mutual
/-- The subterms of a term in the order in which a pass is done with them. -/
def visits : Term → List Term
  | .var v => [.var v]
  | .app f args => visitsList args ++ [.app f args]
  | .missing r => [.missing r]

def visitsList : List Term → List Term
  | [] => []
  | t :: ts => visits t ++ visitsList ts
end

theorem visitsList_eq (ts : List Term) : visitsList ts = ts.flatMap visits := by
  induction ts with
  | nil => rfl
  | cons t ts ih => rw [visitsList, ih, List.flatMap_cons]

theorem visits_app (f : Head) (args : List Term) :
    visits (.app f args) = args.flatMap visits ++ [.app f args] := by
  rw [visits, visitsList_eq]

open Classical in
/-- The first of the subterms outside `X` whose passes come to more nodes than allowed. -/
noncomputable def excess (top : Term → Term) (X : Term → Prop) (c : Nat) (visited : List Term) :
    Option Term :=
  visited.find? fun u => decide (¬ X u ∧ c < (pass top u).wordSize)

theorem excess_append (visited visited' : List Term) :
    excess top X c (visited ++ visited') = (excess top X c visited).or (excess top X c visited') :=
  List.find?_append

theorem excess_eq_none {visited : List Term} :
    excess top X c visited = none ↔ ∀ u ∈ visited, X u ∨ (pass top u).wordSize ≤ c := by
  simp only [excess, List.find?_eq_none, decide_eq_true_eq, not_and_or, not_not, Nat.not_lt]

theorem excess_eq_some {visited : List Term} (h : excess top X c visited = some u) :
    u ∈ visited ∧ ¬ X u ∧ c < (pass top u).wordSize := by
  have found := List.find?_some h
  exact ⟨List.mem_of_find?_eq_some h, by simpa using found⟩

theorem excess_singleton (new : ¬ X a) (large : c < (pass top a).wordSize) : excess top X c [a] = some a :=
  List.find?_cons_of_pos (by simp [new, large])

/-- What was noted before makes a difference only if it is too large. -/
theorem excess_noted (visited : List Term) :
    excess top X c visited = excess top (fun _ => False) c visited ∨
      ∃ u, excess top (fun _ => False) c visited = some u ∧ X u := by
  induction visited with
  | nil => exact .inl rfl
  | cons u visited ih =>
      by_cases large : c < (pass top u).wordSize
      · have first : excess top (fun _ => False) c (u :: visited) = some u :=
          List.find?_cons_of_pos (by simp [large])
        by_cases noted : X u
        · exact .inr ⟨u, first, noted⟩
        · rw [first]
          exact .inl (List.find?_cons_of_pos (by simp [large, noted]))
      · have skip : ∀ Y : Term → Prop, excess top Y c (u :: visited) = excess top Y c visited :=
          fun Y => List.find?_cons_of_neg (by simp [large])
        rw [skip, skip]
        exact ih

open Classical in
/-- Passes until one changes nothing. A failure says what was reached and after how many passes. -/
noncomputable def settle (top : Term → Term) (X : Term → Prop) (c : Nat) :
    (left done : Nat) → Term → Except (Term × Nat) Term
  | 0, done, a => .error (a, done)
  | left + 1, done, a =>
    match excess top X c a.visits with
    | some u => .error (pass top u, done)
    | none => if pass top a = a then .ok a else settle top X c left (done + 1) (pass top a)

theorem settle_noted (left done : Nat) (a : Term) :
    settle top X c left done a = settle top (fun _ => False) c left done a ∨
      ∃ u n, settle top (fun _ => False) c left done a = .error (pass top u, n) ∧
        c < (pass top u).wordSize ∧ X u := by
  induction left generalizing done a with
  | zero => exact .inl rfl
  | succ left ih =>
      simp only [settle]
      rcases excess_noted (X := X) a.visits with same | ⟨u, found, noted⟩
      · rw [same]
        split
        · exact .inl rfl
        · split
          · exact .inl rfl
          · exact ih _ _
      · rw [found]
        exact .inr ⟨u, done, rfl, (excess_eq_some found).2.2, noted⟩

end Term

namespace Reducer

open TermM (Ends Ensures)

variable {rd : Reducer} {s s' : Store} {st st' : ReduceState} {sig : Signature} {gt : Term → Term → Prop}
variable {R E : List (Term × Term)} {t : Ref} {a l r : Term} {e : Equation} {σ : Subst}

/-- The order answers as a relation says. Rules and equations have the given sides, and no use of them brings
in variables. -/
structure Binding (rd : Reducer) (s : Store) (sig : Signature) (gt : Term → Term → Prop)
    (R E : List (Term × Term)) : Prop where
  decides : rd.order.Decides sig gt
  hasRules : s.HasAll sig rd.rules
  hasEquations : s.HasAll sig rd.equations
  rules : s.sides rd.rules = R
  equations : s.sides rd.equations = E
  binding : ∀ d ∈ R ++ bothWays E, ∀ v ∈ d.2.vars, v ∈ d.1.vars

theorem Binding.mono (h : rd.Binding s sig gt R E) (wf : s.WellFormed) (wf' : s'.WellFormed) (le : s ≤ s') :
    rd.Binding s' sig gt R E :=
  { h with
    hasRules := h.hasRules.mono wf wf' le
    hasEquations := h.hasEquations.mono wf wf' le
    rules := (h.hasRules.sides_eq wf wf' le).trans h.rules
    equations := (h.hasEquations.sides_eq wf wf' le).trans h.equations }

theorem Binding.top_over (h : rd.Binding s sig gt R E) (t : Term) (ht : t.Over sig) :
    (Term.top gt R E t).Over sig := by
  rw [← h.rules, ← h.equations]
  exact Term.top_over (fun _ => h.hasRules.sides_over) (fun _ => h.hasEquations.sides_over) t ht

theorem bindClashes_of_bound {targetVars vs : List Var} (bound : ∀ v ∈ vs, σ.isBound v = true) :
    bindClashes targetVars σ vs = pure σ := by
  induction vs with
  | nil => rfl
  | cons v vs ih =>
      have skip : (!σ.isBound v && targetVars.contains v) = false := by
        rw [bound v List.mem_cons_self]
        rfl
      rw [bindClashes, skip]
      exact ih fun w hw => bound w (List.mem_cons_of_mem _ hw)

/-- Nothing is drawn, and what the equation leads to is unique. -/
theorem instantiate_bound (wf : s.WellFormed) (he : s.Means e (l, r)) (bound : ∀ v ∈ r.vars, v ∈ l.vars)
    (hd : s.Denotes t a)
    (found : Store.Refines s.Knows s.Agrees .empty (fun θ => l.subst θ = a) (some σ)) :
    Ensures st s (instantiate e σ t) (fun out st' s' => st' = st ∧
      ∃ u, s'.Denotes out u ∧ Term.Fires Term.Anywhere (l, r) a u) fun _ _ => False := by
  have binds := found.1.binds
  rw [instantiate]
  refine .bindLift (Store.vars_spec wf hd) ?_
  rintro _ s₁ wf₁ le₁ ⟨rfl, -⟩
  refine .bindLift (Store.vars_spec wf₁ (he.2.mono wf wf₁ le₁)) ?_
  rintro _ s₂ wf₂ le₂ ⟨rfl, -⟩
  rw [bindClashes_of_bound fun v hv => found.isBound (bound v hv)]
  have le₁₂ := le₁.trans le₂
  refine .lift (Store.apply_spec wf₂ (binds.mono wf wf₂ le₁₂) (he.2.mono wf wf₂ le₁₂)) ?_
  intro out s₃ _ _ hout
  exact ⟨rfl, _, hout, bound, trivial, _, found.matches.1 _ binds.bound, rfl⟩

theorem useRule_bound (wf : s.WellFormed) (he : s.Means e (l, r)) (bound : ∀ v ∈ r.vars, v ∈ l.vars)
    (hd : s.Denotes t a) :
    Ensures st s (useRule t e) (fun out st' s' => st'.memo = st.memo ∧
      s'.Denotes out (Term.use Term.Anywhere (l, r) a)) fun _ _ => False := by
  refine useRule_ensures wf he hd (fun _ hd' none => ?_) fun σ s₁ wf₁ he₁ hd₁ found => ?_
  · rw [Term.use_unmatched none]
    exact ⟨rfl, hd'⟩
  · refine (instantiate_bound wf₁ he₁ bound hd₁ found).mono ?_ fun _ _ _ _ h => h
    rintro out _ s' - - ⟨rfl, u, hu, fires⟩
    rw [fires.use_eq]
    exact ⟨rfl, hu⟩

theorem useEquation_bound {o : Order} (decides : o.Decides sig gt) (wf : s.WellFormed) (he : s.Means e (l, r))
    (hr : r.Over sig) (bound : ∀ v ∈ r.vars, v ∈ l.vars) (hd : s.Denotes t a) (ha : a.Over sig) :
    Ensures st s (useEquation o t e) (fun out st' s' => st'.memo = st.memo ∧
      s'.Denotes out (Term.use gt (l, r) a)) fun _ _ => False := by
  refine useEquation_ensures (M := fun u st' => st' = st ∧ Term.Fires Term.Anywhere (l, r) a u) decides wf he
    hd ha ?_ ?_ ?_
  · intro _ hd' none
    rw [Term.use_unmatched none]
    exact ⟨rfl, hd'⟩
  · intro σ s₁ wf₁ he₁ hd₁ found
    refine (instantiate_bound wf₁ he₁ bound hd₁ found).mono ?_ fun _ _ _ _ h => h
    rintro out _ s' - - ⟨rfl, u, hu, fires⟩
    exact ⟨u, hu, fires.over ha hr, rfl, fires⟩
  · rintro yes u out _ w s' ⟨rfl, fires⟩ - - answer hd' hu
    refine ⟨rfl, ?_⟩
    cases yes with
    | true =>
        have goesDown : Term.Fires gt (l, r) a u := ⟨bound, answer.1 rfl, fires.leads⟩
        rw [goesDown.use_eq]
        exact hu
    | false =>
        have idle : Term.use gt (l, r) a = a := Term.use_eq_self fun u' fires' => by
          obtain rfl := fires.unique ⟨fires'.bound, trivial, fires'.leads⟩
          exact Bool.false_ne_true (answer.2 fires'.admitted)
        rw [idle]
        exact hd'

theorem foldlM_bound (ok : Term → Term → Prop) {f : Ref → Equation → ReduceM Ref} {es : List Equation}
    (has : s.HasAll sig es)
    (step : ∀ e ∈ es, ∀ {st : ReduceState} {s' : Store} {t : Ref} {a : Term}, s'.WellFormed → s ≤ s' →
      s'.Denotes t a → a.Over sig → Ensures st s' (f t e) (fun out st' s'' => st'.memo = st.memo ∧
        s''.Denotes out (Term.use ok (s.term e.lhs, s.term e.rhs) a)) fun _ _ => False)
    (wf' : s'.WellFormed) (le : s ≤ s') (hd : s'.Denotes t a) (ha : a.Over sig) :
    Ensures st s' (es.foldlM f t) (fun out st' s'' => st'.memo = st.memo ∧
      s''.Denotes out (Term.useAll ok (s.sides es) a)) fun _ _ => False := by
  refine (Ensures.foldlM (I := fun rest t (st' : ReduceState) s'' => st'.memo = st.memo ∧
    ∃ b, s''.Denotes t b ∧ b.Over sig ∧ Term.useAll ok (s.sides rest) b = Term.useAll ok (s.sides es) a)
    wf' ⟨rfl, a, hd, ha, rfl⟩ ?_).mono ?_ fun _ _ _ _ h => h
  · rintro e he rest q st₁ s₁ wf₁ le₁ ⟨kept, b, hb, hb', same⟩
    obtain ⟨l, r, means, -, hr⟩ := has e he
    refine (step e he wf₁ (le.trans le₁) hb hb').mono ?_ fun _ _ _ _ h => h
    rintro out st₂ s₂ - - ⟨kept₂, hout⟩
    exact ⟨kept₂.trans kept, _, hout, Term.use_over hb' (means.2.2 ▸ hr), same⟩
  · rintro out st₁ s₁ - - ⟨kept, b, hb, -, rfl⟩
    exact ⟨kept, hb⟩

theorem reduceTop_bound (h : rd.Binding s sig gt R E) (wf : s.WellFormed) (hd : s.Denotes t a)
    (ha : a.Over sig) : Ensures st s (rd.reduceTop t)
      (fun out st' s' => st'.memo = st.memo ∧ s'.Denotes out (Term.top gt R E a)) fun _ _ => False := by
  rw [reduceTop]
  refine (foldlM_bound Term.Anywhere h.hasRules ?_ wf (le_refl s) hd ha).bind ?_
  · intro e he st s' t a wf' le hd ha
    obtain ⟨l, r, means, -⟩ := h.hasRules e he
    have mem := Store.mem_sides.2 (Store.mem_theory he means)
    have bound := h.binding _ (List.mem_append_left _ (h.rules ▸ mem))
    rw [means.1.2, means.2.2]
    exact useRule_bound wf' (Equation.means_mono means wf wf' le) bound hd
  · rintro q st₁ s₁ wf₁ le₁ ⟨kept₁, hq⟩
    rw [h.rules] at hq
    have has := (hasAll_bothWays h.hasEquations).mono wf wf₁ le₁
    have sides : s₁.sides (rd.equations.flatMap fun e => [e, e.reversed]) = bothWays E := by
      rw [sides_bothWays, h.hasEquations.sides_eq wf wf₁ le₁, h.equations]
    refine (foldlM_bound gt has ?_ wf₁ (le_refl s₁) hq ?_).mono ?_ fun _ _ _ _ h => h
    · intro e he st s' t a wf' le hd ha
      obtain ⟨l, r, means, hl, hr⟩ := has e he
      have mem := Store.mem_sides.2 (Store.mem_theory he means)
      have bound := h.binding _ (List.mem_append_right _ (sides ▸ mem))
      rw [means.1.2, means.2.2]
      exact useEquation_bound h.decides wf' (Equation.means_mono means wf₁ wf' le) hr bound hd ha
    · exact Term.useAll_over ha fun d hd => (h.hasRules.sides_over (h.rules ▸ hd)).2
    · rintro out st₂ s₂ - - ⟨kept₂, hout⟩
      rw [sides] at hout
      exact ⟨kept₂.trans kept₁, hout⟩

/-- What is noted is what passes come to, their subterms are noted too, and nothing has more nodes than
allowed except perhaps what comes from a term in `X`. -/
structure Bounded (top : Term → Term) (X : Term → Prop) (c : Nat) (st : ReduceState) (s : Store) : Prop where
  noted : Noted (fun a b => Term.pass top a = b ∧ (X a ∨ b.wordSize ≤ c)) st s
  args : ∀ {t : Ref} {f : Head} {args : List Ref}, t ∈ st.memo → s.node? t = some (.app f args) →
    ∀ arg ∈ args, arg ∈ st.memo
  all : ∀ {a : Term}, X a → ∃ t ∈ st.memo, s.Denotes t a
  counted : s.Counted

section
variable {top : Term → Term} {X : Term → Prop} {c : Nat}

theorem Bounded.denotes (h : Bounded top X c st s) (ht : t ∈ st.memo) : t < s.size := by
  obtain ⟨out, there⟩ := Option.isSome_iff_exists.1 (Std.TreeMap.mem_iff_isSome_getElem?.1 ht)
  obtain ⟨a, -, hd, -⟩ := h.noted t out there
  exact hd.1

theorem Bounded.grown (h : Bounded top X c st s) (wf : s.WellFormed) (wf' : s'.WellFormed)
    (grown : Store.Grown s s') : Bounded top X c st s' where
  noted := h.noted.mono wf wf' grown.le
  args := by
    intro t f args ht hnode
    obtain ⟨node, there⟩ := Store.exists_node (h.denotes ht)
    obtain rfl := Option.some.inj ((grown.le _ _ there).symm.trans hnode)
    exact h.args ht there
  all := by
    intro a known
    obtain ⟨t, ht, hd⟩ := h.all known
    exact ⟨t, ht, hd.mono wf wf' grown.le⟩
  counted := h.counted.grown grown wf'.below

theorem Bounded.of_memo_eq (h : Bounded top X c st s) (same : st'.memo = st.memo) :
    Bounded top X c st' s where
  noted := by
    intro t out there
    rw [same] at there
    exact h.noted t out there
  args := by
    intro t f args ht
    rw [same] at ht ⊢
    exact h.args ht
  all := by
    rw [same]
    exact h.all
  counted := h.counted

theorem Bounded.fits (h : Bounded top X c st s) (ht : t ∈ st.memo) (hd : s.Denotes t a) :
    X a ∨ (Term.pass top a).wordSize ≤ c := by
  obtain ⟨out, there⟩ := Option.isSome_iff_exists.1 (Std.TreeMap.mem_iff_isSome_getElem?.1 ht)
  obtain ⟨a', b, hd', -, rfl, fine⟩ := h.noted t out there
  rwa [hd.unique hd']

/-- Nothing inside a noted term is in excess. -/
theorem Bounded.excess_eq_none (h : Bounded top X c st s) (wf : s.WellFormed) (ht : t ∈ st.memo)
    (hd : s.Denotes t a) : Term.excess top X c a.visits = none := by
  induction a using Term.induct generalizing t with
  | var v =>
      rw [Term.excess_eq_none, Term.visits, List.forall_mem_singleton]
      exact h.fits ht hd
  | missing q => exact absurd (hd.over_full wf) Term.not_over_missing
  | app f as ih =>
      obtain ⟨args, hnode, hargs⟩ := hd.node_app wf
      rw [Term.excess_eq_none, Term.visits_app]
      intro u hu
      rcases List.mem_append.1 hu with inside | same
      · obtain ⟨a, ha, hu⟩ := List.mem_flatMap.1 inside
        obtain ⟨arg, harg, hd'⟩ := Store.exists_of_forall₂_right hargs ha
        exact Term.excess_eq_none.1 (ih a ha (h.args ht hnode arg harg) hd') u hu
      · rw [List.mem_singleton.1 same]
        exact h.fits ht hd

/-- The outcome of passes over the subterms in turn: none is in excess, or the first one that is gets
reported. -/
def Comes {α : Type} (top : Term → Term) (X : Term → Prop) (call : ReduceCall) (s : Store)
    (visited : List Term) (P : α → Prop) : Except ReduceError α → Prop
  | .ok a => Term.excess top X call.ceiling visited = none ∧ P a
  | .error e => ∃ u last, Term.excess top X call.ceiling visited = some u ∧
      e = .diverged call.start last call.passes ∧ s.Denotes last (Term.pass top u)

/-- The invariant is kept, and notes remain. -/
structure Advances (top : Term → Term) (X : Term → Prop) (c : Nat) (st st' : ReduceState) (s' : Store) :
    Prop where
  bounded : Bounded top X c st' s'
  memo : ∀ t ∈ st.memo, t ∈ st'.memo

theorem Advances.trans {st'' : ReduceState} {s'' : Store} (h : Advances top X c st st' s')
    (h' : Advances top X c st' st'' s'') : Advances top X c st st'' s'' :=
  ⟨h'.bounded, fun t ht => h'.memo t (h.memo t ht)⟩

variable {call : ReduceCall} {out : Ref} {b : Term}

/-- A term is noted whose arguments are. -/
theorem Bounded.note (h : Bounded top X c st s) (hd : s.Denotes t a) (hout : s.Denotes out (Term.pass top a))
    (fits : (Term.pass top a).wordSize ≤ c)
    (inside : ∀ {f : Head} {args : List Ref}, s.node? t = some (.app f args) → ∀ arg ∈ args, arg ∈ st.memo) :
    Bounded top X c { st with memo := st.memo.insert t out } s where
  noted := by
    intro t' out' there
    dsimp only at there
    rw [Std.TreeMap.getElem?_insert] at there
    split at there
    · rename_i same
      rw [Std.LawfulEqCmp.compare_eq_iff_eq] at same
      cases there
      exact ⟨a, _, same ▸ hd, hout, rfl, .inr fits⟩
    · exact h.noted t' out' there
  args := by
    intro t' f args ht' hnode arg harg
    rw [Std.TreeMap.mem_insert] at ht' ⊢
    right
    rcases ht' with same | ht'
    · rw [Std.LawfulEqCmp.compare_eq_iff_eq] at same
      exact inside (same ▸ hnode) arg harg
    · exact h.args ht' hnode arg harg
  all := by
    intro a' known
    obtain ⟨t', ht', hd'⟩ := h.all known
    exact ⟨t', Std.TreeMap.mem_insert.2 (.inr ht'), hd'⟩
  counted := h.counted

theorem settle_ends (valid : rd.Binding s sig gt R E) (grows : rd.order.Grows) (wf : s.WellFormed)
    (bounded : Bounded (Term.top gt R E) X call.ceiling st s) (hd : s.Denotes t a) (hi : s.Denotes out b)
    (hb : b.Over sig) (whole : Term.top gt R E b = Term.pass (Term.top gt R E) a) (new : ¬ X a)
    (visited : List Term) (visits : a.visits = visited ++ [a])
    (before : Term.excess (Term.top gt R E) X call.ceiling visited = none)
    (inside : ∀ {f : Head} {args : List Ref}, s.node? t = some (.app f args) → ∀ arg ∈ args, arg ∈ st.memo) :
    Ends st s (rd.settle call t out) fun result st' s' =>
      Advances (Term.top gt R E) X call.ceiling st st' s' ∧
      Comes (Term.top gt R E) X call s' a.visits
        (fun q => s'.Denotes q (Term.pass (Term.top gt R E) a) ∧ t ∈ st'.memo) result := by
  rw [settle]
  have tracks := reduceTop_tracks (Q := fun _ _ => True) grows.tracks out
  refine ((reduceTop_bound valid wf hi hb).grown tracks).bindEnds ?_
  rintro q st₁ s₁ wf₁ le₁ ⟨⟨same, hq⟩, grown⟩
  have bounded₁ := (bounded.grown wf wf₁ grown).of_memo_eq same
  rw [whole] at hq
  have size : (s₁.sizeOf q).toNat = (Term.pass (Term.top gt R E) a).wordSize := by
    rw [bounded₁.counted.2 q hq.1, hq.2]
    rfl
  have last : Term.excess (Term.top gt R E) X call.ceiling a.visits =
      Term.excess (Term.top gt R E) X call.ceiling [a] := by
    rw [visits, Term.excess_append, before, Option.none_or]
  refine .bindStore ?_
  split
  · rename_i large
    rw [size] at large
    refine .throw wf₁ ⟨⟨bounded₁, fun t ht => same ▸ ht⟩, a, q, ?_, rfl, hq⟩
    rw [last, Term.excess_singleton new large]
  · rename_i small
    rw [size, Nat.not_lt] at small
    have hd₁ := hd.mono wf wf₁ le₁
    refine .bindModify (.pure wf₁ ⟨⟨bounded₁.note hd₁ hq small ?_, fun t ht => ?_⟩, ?_, hq, ?_⟩)
    · intro f args hnode arg harg
      obtain ⟨node, there⟩ := Store.exists_node hd.1
      obtain rfl := Option.some.inj ((le₁ _ _ there).symm.trans hnode)
      exact same ▸ inside there arg harg
    · exact Std.TreeMap.mem_insert.2 (.inr (same ▸ ht))
    · rw [last, Term.excess_eq_none, List.forall_mem_singleton]
      exact .inr small
    · exact Std.TreeMap.mem_insert_self

/-- Passes over a list of terms in turn. -/
theorem mapM_ends {f : Ref → ReduceM Ref} {args : List Ref} (wf : s.WellFormed)
    (bounded : Bounded top X call.ceiling st s)
    (h : ∀ arg ∈ args, ∀ st₁ s₁, s₁.WellFormed → s ≤ s₁ → Bounded top X call.ceiling st₁ s₁ →
      Ends st₁ s₁ (f arg) fun result st' s' => Advances top X call.ceiling st₁ st' s' ∧
        Comes top X call s' (s.term arg).visits
          (fun q => s'.Denotes q (Term.pass top (s.term arg)) ∧ arg ∈ st'.memo) result) :
    Ends st s (args.mapM f) fun result st' s' => Advances top X call.ceiling st st' s' ∧
      Comes top X call s' ((args.map s.term).flatMap Term.visits)
        (fun qs => s'.DenotesAll qs ((args.map s.term).map (Term.pass top)) ∧ ∀ arg ∈ args, arg ∈ st'.memo)
        result := by
  suffices gen : ∀ st₁ s₁, s₁.WellFormed → s ≤ s₁ → Bounded top X call.ceiling st₁ s₁ →
      Ends st₁ s₁ (args.mapM f) fun result st' s' => Advances top X call.ceiling st₁ st' s' ∧
        Comes top X call s' ((args.map s.term).flatMap Term.visits)
          (fun qs => s'.DenotesAll qs ((args.map s.term).map (Term.pass top)) ∧ ∀ arg ∈ args, arg ∈ st'.memo)
          result from gen st s wf (le_refl s) bounded
  induction args with
  | nil => exact fun st₁ s₁ wf₁ _ bounded₁ => .pure wf₁ ⟨⟨bounded₁, fun _ h => h⟩, rfl, .nil, nofun⟩
  | cons arg args ih =>
      intro st₁ s₁ wf₁ le₁ bounded₁
      rw [List.mapM_cons]
      refine (h arg List.mem_cons_self st₁ s₁ wf₁ le₁ bounded₁).bind ?_ ?_
      · rintro q st₂ s₂ wf₂ le₂ ⟨advances₂, quiet₂, hq, noted⟩
        refine (ih (fun arg' harg => h arg' (List.mem_cons_of_mem _ harg)) st₂ s₂ wf₂ (le₁.trans le₂)
          advances₂.bounded).bind ?_ ?_
        · rintro qs st₃ s₃ wf₃ le₃ ⟨advances₃, quiet₃, hqs, all⟩
          refine .pure wf₃ ⟨advances₂.trans advances₃, ?_, .cons (hq.mono wf₂ wf₃ le₃) hqs, ?_⟩
          · rw [List.map_cons, List.flatMap_cons, Term.excess_append, quiet₂, Option.none_or]
            exact quiet₃
          · exact List.forall_mem_cons.2 ⟨advances₃.memo _ noted, all⟩
        · rintro e st₃ s₃ - - ⟨advances₃, u, last, found, reported⟩
          refine ⟨advances₂.trans advances₃, u, last, ?_, reported⟩
          rw [List.map_cons, List.flatMap_cons, Term.excess_append, quiet₂, Option.none_or]
          exact found
      · rintro e st₂ s₂ - - ⟨advances₂, u, last, found, reported⟩
        refine ⟨advances₂, u, last, ?_, reported⟩
        rw [List.map_cons, List.flatMap_cons, Term.excess_append, found, Option.some_or]

theorem passWithin_ends {n : Nat} (valid : rd.Binding s sig gt R E) (grows : rd.order.Grows)
    (wf : s.WellFormed) (bounded : Bounded (Term.top gt R E) X call.ceiling st s) (hd : s.Denotes t a)
    (ha : a.Over sig) (deep : t < n) : Ends st s (rd.passWithin call n t) fun result st' s' =>
      Advances (Term.top gt R E) X call.ceiling st st' s' ∧
      Comes (Term.top gt R E) X call s' a.visits
        (fun q => s'.Denotes q (Term.pass (Term.top gt R E) a) ∧ t ∈ st'.memo) result := by
  induction n generalizing st s t a with
  | zero => exact absurd deep (Nat.not_lt_zero t)
  | succ n ih =>
      rw [passWithin]
      refine .bindGet ?_
      split
      · rename_i q there
        have noted : t ∈ st.memo := Std.TreeMap.mem_iff_isSome_getElem?.2 (there ▸ rfl)
        obtain ⟨a', b, hd', hb, rfl, -⟩ := bounded.noted t q there
        obtain rfl := hd.unique hd'
        exact .pure wf ⟨⟨bounded, fun _ h => h⟩, bounded.excess_eq_none wf noted hd, hb, noted⟩
      · rename_i unknown
        have new : ¬ X a := by
          intro known
          obtain ⟨t', ht', hd'⟩ := bounded.all known
          obtain rfl := hd.inj hd' wf
          rw [Std.TreeMap.mem_iff_isSome_getElem?, unknown] at ht'
          cases ht'
        refine .bindStore ?_
        obtain ⟨node, hnode⟩ := Store.exists_node hd.1
        rw [hnode]
        cases node with
        | var v =>
            obtain rfl := hd.unique (wf.denotes_var hnode)
            refine settle_ends valid grows wf bounded hd hd ha rfl new [] rfl rfl ?_
            intro f args there
            rw [hnode] at there
            cases there
        | app f args =>
            obtain rfl := hd.unique ⟨hd.1, wf.below.term_app hnode⟩
            refine (mapM_ends wf bounded fun arg harg st₁ s₁ wf₁ le₁ bounded₁ => ?_).bind ?_ ?_
            · have lt := wf.below hnode arg harg
              have hd' : s.Denotes arg (s.term arg) := Store.denotes_term (Nat.lt_trans lt hd.1)
              exact ih (valid.mono wf wf₁ le₁) wf₁ bounded₁ (hd'.mono wf wf₁ le₁)
                ((Term.over_app_iff.1 ha).2 _ (List.mem_map_of_mem harg))
                (Nat.lt_of_lt_of_le lt (Nat.le_of_lt_succ deep))
            · rintro outs st₁ s₁ wf₁ le₁ ⟨advances₁, quiet, houts, noted⟩
              have stored := Store.app_spec (f := f) wf₁ houts
              have here : s₁.Ensures (Store.app f outs) fun q s₂ => s₂.Denotes q _ ∧ Store.Grown s₁ s₂ :=
                ⟨stored.1, stored.2.1, stored.2.2, Store.intern_grows _ s₁⟩
              refine .bindLift here ?_
              rintro q s₂ wf₂ le₂ ⟨hq, grown⟩
              have le₁₂ := le₁.trans le₂
              obtain ⟨known, inSig⟩ := Term.over_app_iff.1 ha
              refine (settle_ends (valid.mono wf wf₂ le₁₂) grows wf₂ (advances₁.bounded.grown wf₁ wf₂ grown)
                (hd.mono wf wf₂ le₁₂) hq (Term.over_app_iff.2 ⟨by simpa using known, fun b hb => ?_⟩)
                (Term.pass_app f _).symm new _ (Term.visits_app f _) quiet fun {g args'} hnode' => ?_).mono ?_
              · obtain ⟨a, ha, rfl⟩ := List.mem_map.1 hb
                exact Term.pass_over valid.top_over (inSig a ha)
              · obtain ⟨rfl, rfl⟩ : f = g ∧ args = args' := by
                  simpa using (le₁₂ _ _ hnode).symm.trans hnode'
                exact noted
              · rintro result st₃ s₃ - - ⟨advances₃, comes⟩
                exact ⟨⟨advances₃.bounded, fun t ht => advances₃.memo t (advances₁.memo t ht)⟩, comes⟩
            · rintro e st₁ s₁ - - ⟨advances₁, u, last, found, reported⟩
              refine ⟨advances₁, u, last, ?_, reported⟩
              rw [Term.visits_app, Term.excess_append, found, Option.some_or]

/-- What passes report: the term that they end with, or a failure with what was reached. -/
def Reports (s : Store) (start : Ref) : Except (Term × Nat) Term → Except ReduceError Ref → Prop
  | .ok b, .ok q => s.Denotes q b
  | .error (u, n), .error e => ∃ last, e = .diverged start last n ∧ s.Denotes last u
  | _, _ => False

theorem passUntilFixed_ends {start : Ref} {ceiling left done : Nat} (valid : rd.Binding s sig gt R E)
    (grows : rd.order.Grows) (wf : s.WellFormed) (bounded : Bounded (Term.top gt R E) X ceiling st s)
    (hd : s.Denotes t a) (ha : a.Over sig) :
    Ends st s (rd.passUntilFixed start ceiling left done t) fun result st' s' =>
      Advances (Term.top gt R E) X ceiling st st' s' ∧
      Reports s' start (Term.settle (Term.top gt R E) X ceiling left done a) result := by
  induction left generalizing st s t a done with
  | zero => exact .throw wf ⟨⟨bounded, fun _ h => h⟩, t, rfl, hd⟩
  | succ left ih =>
      rw [passUntilFixed, pass, Term.settle]
      have deep : t < s.growingBound := Nat.lt_of_lt_of_le hd.1 (Nat.le_add_right _ _)
      refine Ends.bind (.bindStore (passWithin_ends valid grows wf bounded hd ha deep)) ?_ ?_
      · rintro q st₁ s₁ wf₁ le₁ ⟨advances₁, quiet, hq, -⟩
        have hd₁ := hd.mono wf wf₁ le₁
        refine .bindModify ?_
        rw [quiet]
        split
        · rename_i same
          have fixed := (hq.eq_iff hd₁ wf₁).1 same
          rw [if_pos fixed]
          exact .pure wf₁ ⟨⟨advances₁.bounded.of_memo_eq rfl, advances₁.memo⟩, hd₁⟩
        · rename_i other
          rw [if_neg fun fixed => other ((hq.eq_iff hd₁ wf₁).2 fixed)]
          have next : Bounded (Term.top gt R E) X ceiling { st₁ with passes := st₁.passes + 1 } s₁ :=
            advances₁.bounded.of_memo_eq rfl
          refine (ih (valid.mono wf wf₁ le₁) wf₁ next hq (Term.pass_over valid.top_over ha)).mono ?_
          rintro result st₂ s₂ - - ⟨advances₂, reports⟩
          exact ⟨⟨advances₂.bounded, fun t ht => advances₂.memo t (advances₁.memo t ht)⟩, reports⟩
      · rintro e st₁ s₁ - - ⟨advances₁, u, last, found, reported, hlast⟩
        rw [found]
        exact ⟨advances₁, last, reported, hlast⟩

/-- Normalization reports what passes come to under the ceiling that the size of the target gives. -/
theorem normalize_ends (valid : rd.Binding s sig gt R E) (grows : rd.order.Grows) (wf : s.WellFormed)
    (bounded : Bounded (Term.top gt R E) X (a.wordSize + rd.maxGrowth) st s) (hd : s.Denotes t a)
    (ha : a.Over sig) : Ends st s (rd.normalize t) fun result st' s' =>
      Bounded (Term.top gt R E) X (a.wordSize + rd.maxGrowth) st' s' ∧
      Reports s' t (Term.settle (Term.top gt R E) X (a.wordSize + rd.maxGrowth) rd.maxPasses 0 a) result := by
  have size : (s.sizeOf t).toNat = a.wordSize := by
    rw [bounded.counted.2 t hd.1, hd.2]
    rfl
  rw [normalize]
  refine .bindStore ?_
  dsimp only
  rw [size]
  exact (passUntilFixed_ends valid grows wf bounded hd ha).mono fun _ _ _ _ _ h => ⟨h.1.bounded, h.2⟩

end

end Reducer
end OrderedCompletion
