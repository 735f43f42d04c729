import Mathlib.Algebra.BigOperators.Ring.List
import OrderedCompletion.Proofs.Completeness
import OrderedCompletion.Proofs.CriticalPeaks
import OrderedCompletion.Proofs.Tracking

/-! What a reducer returns can be rewritten no further, and a new reducer returns it as it is if its nodes
can be counted. -/

namespace OrderedCompletion

variable {sig : Signature} {gt : Term → Term → Prop} {R E : Theory} {a l r u : Term}

/-- Nothing can be used anywhere in a term: no rule matches, and no equation leads from a subterm to a smaller
term. For variables that the match leaves unbound stand some that are not in the subterm. -/
structure Term.Irreducible (gt : Term → Term → Prop) (R E : Theory) (t : Term) : Prop where
  rules : ∀ {p : Position} {w l r : Term} {θ : Var → Term}, t.subtermAt p = some w → (l, r) ∈ R → l.subst θ ≠ w
  equations : ∀ {p : Position} {w l r : Term} {θ : Var → Term}, t.subtermAt p = some w →
    (l, r) ∈ E ∨ (r, l) ∈ E → l.subst θ = w →
    (∀ v ∈ r.vars, v ∉ l.vars → ∃ x, θ v = .var x ∧ x ∉ w.vars) → ¬ gt w (r.subst θ)

theorem Term.Irreducible.arg {f : Head} {args : List Term} (h : (Term.app f args).Irreducible gt R E)
    (ha : a ∈ args) : a.Irreducible gt R E := by
  obtain ⟨i, hi⟩ := List.getElem?_of_mem ha
  have inside : ∀ {p : Position} {w : Term}, a.subtermAt p = some w →
      (Term.app f args).subtermAt (i :: p) = some w := fun at_ => (Term.subtermAt_cons hi).trans at_
  exact ⟨fun at_ => h.rules (inside at_), fun at_ => h.equations (inside at_)⟩

/-- What is smaller has no variables of its own, so that a use that goes down leaves nothing unbound. -/
theorem ReductionOrder.irreducible (laws : ReductionOrder sig gt) (fits : laws.gauge.Fits E) (hu : u.Over sig)
    (settled : laws.gauge.Settled R E u) : u.Irreducible gt R E where
  rules := fun at_ rule => (settled _ _ at_).rules _ _ rule _
  equations := by
    intro p w l r θ at_ eq same free down
    have hw := hu.subtermAt at_
    have hr : r.Over sig := eq.elim (fun h => (fits l r h).2) fun h => (fits r l h).1
    have hrθ : (r.subst θ).Over sig := by
      refine hr.subst fun v hv => ?_
      by_cases inside : v ∈ l.vars
      · exact Term.Over.of_mem_vars (same ▸ hw) inside
      · obtain ⟨x, hx, -⟩ := free v hv inside
        rw [hx]
        exact .var x
    have bound : ∀ v ∈ r.vars, v ∈ l.vars := by
      intro v hv
      by_contra outside
      obtain ⟨x, hx, apart⟩ := free v hv outside
      refine apart (laws.vars_subset hw hrθ down x (Term.mem_vars_subst.2 ⟨v, hv, ?_⟩))
      rw [hx, Term.mem_vars_var]
    obtain ⟨η, same', refused, -⟩ := (settled p w at_).equations l r eq θ same
    have agree := Term.eq_of_subst_eq (same'.trans same.symm)
    rw [Term.subst_congr fun v hv => agree v (bound v hv)] at refused
    exact refused down

namespace Reducer

variable {G : Gauge} {rd : Reducer} {s s' : Store} {st st' : ReduceState} {t : Ref} {e : Equation} {σ : Subst}
variable {o : Order} {m : Nat}

theorem Valid.of_directed (laws : ReductionOrder sig gt) (decides : rd.order.Decides sig gt)
    (rules : ∀ e ∈ rd.rules, s.Directed sig gt e) (equations : s.HasAll sig rd.equations) :
    rd.Valid laws.gauge s (s.theory rd.rules) (s.theory rd.equations) where
  obeys := decides.obeys laws
  hasRules := .of_directed rules
  hasEquations := equations
  rules := rfl
  equations := rfl
  descends := by
    rintro l r ⟨e, he, same⟩
    obtain ⟨l', r', means, inSig⟩ := rules e he
    obtain ⟨rfl, rfl⟩ := Store.eq_of_means means same
    exact inSig

/-- What a new reducer and its store come to as targets over a signature are given to it in turn, whatever
becomes of these. Others may put terms into the store. -/
inductive Reached (rd : Reducer) (sig : Signature) (s : Store) : ReduceState → Store → Prop
  | new (w : Workspace) : Reached rd sig s { workspace := w } s
  | grow {st : ReduceState} {s₁ s₂ : Store} : Reached rd sig s st s₁ → Store.Grown s₁ s₂ → s₂.WellFormed →
      Reached rd sig s st s₂
  | target {st : ReduceState} {s₁ : Store} {t : Ref} {a : Term} : Reached rd sig s st s₁ → s₁.Denotes t a →
      a.Over sig → Reached rd sig s (rd.normalize t st s₁).1.2 (rd.normalize t st s₁).2

theorem Reached.noted (h : rd.Reached G.sig s st s') (valid : rd.Valid G s R E) (grows : rd.order.Grows)
    (wf : s.WellFormed) : s'.WellFormed ∧ Store.Grown s s' ∧ Noted (Passes G R E) st s' := by
  induction h with
  | new w => exact ⟨wf, .refl s, noted_nothing rfl⟩
  | grow _ grown wf₂ ih =>
      obtain ⟨wf₁, grown₁, noted⟩ := ih
      exact ⟨wf₂, grown₁.trans grown, noted.mono wf₁ wf₂ grown.le⟩
  | @target st s₁ t a _ hd ha ih =>
      obtain ⟨wf₁, grown₁, noted⟩ := ih
      have spec := normalize_spec (valid.mono wf wf₁ grown₁.le) wf₁ noted hd ha
      have tracks : TermM.Tracks (fun _ _ => True) (rd.normalize t) _ := normalize_tracks grows.tracks t
      refine ⟨spec.1, grown₁.trans (tracks st s₁).1, ?_⟩
      exact (spec.mono (fun _ _ _ _ _ h => h.1.noted) fun _ _ _ _ h => h.noted).leaves

theorem bindClashes_provided {targetVars vs : List Var} (wf : s.WellFormed)
    (enough : st.workspace.supply.Provides (vs.length + m)) :
    TermM.Ensures st s (bindClashes targetVars σ vs) (fun _ st' _ => st'.workspace.supply.Provides m)
      fun _ _ => False := by
  induction vs generalizing st s σ with
  | nil =>
      rw [List.length_nil, Nat.zero_add] at enough
      exact .pure wf enough
  | cons v vs ih =>
      rw [List.length_cons, Nat.add_right_comm] at enough
      rw [bindClashes]
      split
      · have drawn : TermM.Ensures st s (onWorkspace Workspace.drawVar)
            (fun _ st' _ => st'.workspace.supply.Provides (vs.length + m)) fun _ _ => False := by
          refine (TermM.Ensures.within (Workspace.drawVar_provided wf enough)).mono ?_ fun _ _ _ _ h => ?_
          · rintro _ _ _ - - ⟨w', rfl, rest⟩
            exact rest
          · obtain ⟨-, -, no⟩ := h
            exact no
        exact drawn.bind fun _ _ _ wf₁ _ rest => ih wf₁ rest
      · exact ih wf (enough.mono (Nat.le_succ _))

theorem instantiate_provided (wf : s.WellFormed) (he : s.Means e (l, r)) (hd : s.Denotes t a)
    (found : Store.Refines s.Knows s.Agrees .empty (fun θ => l.subst θ = a) (some σ))
    (enough : st.workspace.supply.Provides (r.vars.length + m)) :
    TermM.Ensures st s (instantiate e σ t) (fun _ st' _ => st'.workspace.supply.Provides m)
      fun _ _ => False := by
  rw [instantiate]
  refine .bindLift (Store.vars_spec wf hd) ?_
  rintro _ s₁ wf₁ le₁ ⟨rfl, -⟩
  refine .bindLift (Store.vars_spec wf₁ (he.2.mono wf wf₁ le₁)) ?_
  rintro _ s₂ wf₂ le₂ ⟨rfl, -⟩
  have le₁₂ := le₁.trans le₂
  have bound : TermM.Ensures st s₂ (bindClashes a.vars σ r.vars) _ _ :=
    (bindClashes_provided wf₂ enough).and (bindClashes_spec wf₂ (found.1.binds.mono wf wf₂ le₁₂))
  refine (bound.mono (fun _ _ _ _ _ h => h) fun _ _ _ _ h => h.1).bind ?_
  rintro σ' st₃ s₃ wf₃ le₃ ⟨rest, -, η, hη, -⟩
  exact .lift (Store.apply_spec wf₃ hη (he.2.mono wf wf₃ (le₁₂.trans le₃))) fun _ _ _ _ _ => rest

/-- The action returns the given reference and fails in no case. Of the variables that the supply provides
some are left. -/
abbrev Idles (m : Nat) (st : ReduceState) (s : Store) (x : ReduceM Ref) (t : Ref) : Prop :=
  TermM.Ensures st s x (fun out st' _ => out = t ∧ Keeps st st' ∧ st'.workspace.supply.Provides m)
    fun _ _ => False

theorem useRule_idles (wf : s.WellFormed) (he : s.Means e (l, r)) (hd : s.Denotes t a)
    (none : ∀ θ, l.subst θ ≠ a) (enough : st.workspace.supply.Provides m) : Idles m st s (useRule t e) t := by
  refine useRule_ensures wf he hd (fun _ _ _ => ⟨rfl, .refl st, enough⟩) fun σ s₁ _ _ _ found => ?_
  exact absurd (found.matches.1 _ found.1.binds.bound) (none _)

theorem useEquation_idles (laws : ReductionOrder sig gt) (decides : o.Decides sig gt) (wf : s.WellFormed)
    (he : s.Means e (l, r)) (hr : r.Over sig) (hd : s.Denotes t a) (ha : a.Over sig)
    (none : ∀ θ, l.subst θ = a → (∀ v ∈ r.vars, v ∉ l.vars → ∃ x, θ v = .var x ∧ x ∉ a.vars) →
      ¬ gt a (r.subst θ))
    (withheld : st.workspace.supply.Withholds a)
    (enough : st.workspace.supply.Provides (r.vars.length + m)) : Idles m st s (useEquation o t e) t := by
  refine useEquation_ensures (M := fun u st' => Keeps st st' ∧ st'.workspace.supply.Provides m ∧ ¬ gt a u)
    decides wf he hd ha ?_ ?_ ?_
  · exact fun _ _ _ => ⟨rfl, .refl st, enough.mono (Nat.le_add_left _ _)⟩
  · intro σ s₁ wf₁ he₁ hd₁ found
    have made : TermM.Ensures st s₁ (instantiate e σ t) _ _ :=
      (instantiate_provided wf₁ he₁ hd₁ found enough).and (instantiate_spec wf₁ he₁ hd₁ ha found)
    refine made.mono ?_ fun _ _ _ _ h => h.1
    rintro out st₂ s₂ - - ⟨rest, kept, u, η, hu, inst, -, apart⟩
    have hu' : u.Over sig := inst.right ▸ hr.subst fun v _ => inst.inSig v
    refine ⟨u, hu, hu', kept, rest, fun down => ?_⟩
    have smaller := laws.vars_subset ha hu' down
    refine none η inst.left (fun v hv free => ?_) (inst.right ▸ down)
    obtain ⟨x, inside, outside⟩ := apart withheld v hv free
    exact absurd (smaller x inside) outside
  · rintro yes u out st' w s' ⟨kept, rest, refused⟩ - same answer - -
    rw [if_neg fun greater => refused (answer.1 greater)]
    exact ⟨rfl, kept.trans ⟨rfl, same ▸ .refl _⟩, same ▸ rest⟩

theorem foldlM_idles {f : Ref → Equation → ReduceM Ref} {es : List Equation} (cost : Equation → Nat)
    (step : ∀ e ∈ es, ∀ {m : Nat} {st : ReduceState} {s' : Store}, s'.WellFormed → s ≤ s' →
      st.workspace.supply.Withholds a → st.workspace.supply.Provides (cost e + m) → Idles m st s' (f t e) t)
    (wf' : s'.WellFormed) (le : s ≤ s') (withheld : st.workspace.supply.Withholds a)
    (enough : st.workspace.supply.Provides ((es.map cost).sum + m)) : Idles m st s' (es.foldlM f t) t := by
  refine (TermM.Ensures.foldlM (I := fun rest q st' _ => q = t ∧ Keeps st st' ∧
    st'.workspace.supply.Provides ((rest.map cost).sum + m)) wf' ⟨rfl, .refl st, enough⟩ ?_).mono ?_
    fun _ _ _ _ no => no
  · rintro e he rest _ st₁ s₁ wf₁ le₁ ⟨rfl, kept, left⟩
    rw [List.map_cons, List.sum_cons, Nat.add_assoc] at left
    refine (step e he wf₁ (le.trans le₁) (withheld.later kept.later) left).mono ?_ fun _ _ _ _ no => no
    rintro _ st₂ s₂ - - ⟨rfl, kept₂, left₂⟩
    exact ⟨rfl, kept.trans kept₂, left₂⟩
  · rintro out st₁ s₁ - - ⟨same, kept, left⟩
    rw [List.map_nil, List.sum_nil, Nat.zero_add] at left
    exact ⟨same, kept, left⟩

/-- The fresh variables that one use of every equation in both directions may draw. -/
def draws (rd : Reducer) (s : Store) : Nat :=
  ((rd.equations.flatMap fun e => [e, e.reversed]).map fun e => (s.term e.rhs).vars.length).sum

theorem draws_eq (h : s.HasAll sig rd.equations) (wf : s.WellFormed) (wf' : s'.WellFormed) (le : s ≤ s') :
    rd.draws s' = rd.draws s := by
  rw [draws, draws]
  refine congrArg List.sum (List.map_congr_left fun e he => ?_)
  obtain ⟨d, hd, side⟩ := List.mem_flatMap.1 he
  obtain ⟨l, r, means, -⟩ := h d hd
  have means' := Equation.means_mono means wf wf' le
  rcases List.mem_pair.1 side with rfl | rfl
  · rw [means.2.2, means'.2.2]
  · rw [Equation.reversed, means.1.2, means'.1.2]

theorem reduceTop_idles (laws : ReductionOrder sig gt) (decides : rd.order.Decides sig gt)
    (valid : rd.Valid laws.gauge s R E) (wf : s.WellFormed) (hd : s.Denotes t a) (ha : a.Over sig)
    (still : a.Irreducible gt R E) (withheld : st.workspace.supply.Withholds a)
    (enough : st.workspace.supply.Provides (rd.draws s + m)) : Idles m st s (rd.reduceTop t) t := by
  rw [reduceTop]
  refine (foldlM_idles (a := a) (fun _ => 0) ?_ wf (le_refl s) withheld (m := rd.draws s + m) ?_).bind ?_
  · intro e he m st s' wf' le _ enough
    obtain ⟨l, r, means, -⟩ := valid.hasRules e he
    rw [Nat.zero_add] at enough
    exact useRule_idles wf' (Equation.means_mono means wf wf' le) (hd.mono wf wf' le)
      (fun θ => still.rules Term.subtermAt_nil (valid.rules ▸ Store.mem_theory he means)) enough
  · simpa using enough
  · rintro _ st₁ s₁ wf₁ le₁ ⟨rfl, kept₁, enough₁⟩
    rw [draws] at enough₁
    refine (foldlM_idles (s := s) (a := a) _ ?_ wf₁ le₁ (withheld.later kept₁.later) enough₁).mono ?_
      fun _ _ _ _ no => no
    · intro e he m st s' wf' le withheld enough
      obtain ⟨l, r, means, -, hr, mem⟩ := valid.hasEquations.means_bothWays he
      rw [means.2.2] at enough
      exact useEquation_idles laws decides wf' (Equation.means_mono means wf wf' le) hr (hd.mono wf wf' le) ha
        (fun θ => still.equations Term.subtermAt_nil (valid.equations ▸ mem)) withheld enough
    · rintro _ st₂ s₂ - - ⟨rfl, kept₂, enough₂⟩
      exact ⟨rfl, kept₁.trans kept₂, enough₂⟩

/-- Passes have changed nothing so far, and so many variables are left. -/
structure Steady (m : Nat) (st : ReduceState) (s : Store) : Prop where
  counted : s.Counted
  notes : ∀ t out : Ref, st.memo[t]? = some out → out = t
  provides : st.workspace.supply.Provides m

theorem Steady.mono {n : Nat} (h : Steady n st s) (le : m ≤ n) : Steady m st s :=
  ⟨h.counted, h.notes, h.provides.mono le⟩

/-- The action returns what it is given, and passes go on to change nothing. -/
abbrev Stays {α : Type} (m : Nat) (st : ReduceState) (s : Store) (x : ReduceM α) (given : α) : Prop :=
  TermM.Ensures st s x (fun out st' s' => out = given ∧ Steady m st' s' ∧
    st.workspace.supply.Later st'.workspace.supply) fun _ _ => False

theorem mapM_stays {f : Ref → ReduceM Ref} {cost : Ref → Nat} {args : List Ref} (wf : s.WellFormed)
    (h : ∀ arg ∈ args, ∀ m st₁ s₁, s₁.WellFormed → s ≤ s₁ →
      st.workspace.supply.Later st₁.workspace.supply → Steady (cost arg + m) st₁ s₁ →
      Stays m st₁ s₁ (f arg) arg)
    (steady : Steady ((args.map cost).sum + m) st s) : Stays m st s (args.mapM f) args := by
  induction args generalizing st s with
  | nil =>
      rw [List.map_nil, List.sum_nil, Nat.zero_add] at steady
      exact .pure wf ⟨rfl, steady, .refl _⟩
  | cons arg args ih =>
      rw [List.map_cons, List.sum_cons, Nat.add_assoc] at steady
      rw [List.mapM_cons]
      refine (h arg List.mem_cons_self _ st s wf (le_refl s) (.refl _) steady).bind ?_
      rintro _ st₁ s₁ wf₁ le₁ ⟨rfl, steady₁, later₁⟩
      refine (ih wf₁ (fun arg' harg m st₂ s₂ wf₂ le₂ later₂ => ?_) steady₁).bind ?_
      · exact h arg' (List.mem_cons_of_mem _ harg) m st₂ s₂ wf₂ (le₁.trans le₂) (later₁.trans later₂)
      · rintro _ st₂ s₂ wf₂ le₂ ⟨rfl, steady₂, later₂⟩
        exact .pure wf₂ ⟨rfl, steady₂, later₁.trans later₂⟩

section
variable {call : ReduceCall} {n : Nat} (laws : ReductionOrder sig gt) (decides : rd.order.Decides sig gt)
  (grows : rd.order.Grows)
include laws decides grows

theorem settle_stays (valid : rd.Valid laws.gauge s R E) (wf : s.WellFormed) (hd : s.Denotes t a)
    (ha : a.Over sig) (still : a.Irreducible gt R E) (small : a.size < 2 ^ 32) (fits : a.size ≤ call.ceiling)
    (withheld : st.workspace.supply.Withholds a) (steady : Steady (rd.draws s + m) st s) :
    Stays m st s (rd.settle call t t) t := by
  rw [settle]
  have top := (reduceTop_idles laws decides valid wf hd ha still withheld steady.provides).grown
    (reduceTop_tracks (Q := fun _ _ => True) grows.tracks t)
  refine top.bind ?_
  rintro _ st₁ s₁ wf₁ le₁ ⟨⟨rfl, kept, enough⟩, grown⟩
  have counted := steady.counted.grown grown wf₁.below
  refine .bindStore ?_
  rw [if_neg (by rw [counted.sizeOf_eq (hd.mono wf wf₁ le₁) small]; exact Nat.not_lt.2 fits)]
  refine .bindModify (.pure wf₁ ⟨rfl, ⟨counted, fun t' out' ht' => ?_, enough⟩, kept.later⟩)
  dsimp only at ht'
  rw [Std.TreeMap.getElem?_insert] at ht'
  split at ht'
  · rename_i same
    rw [Std.LawfulEqCmp.compare_eq_iff_eq] at same
    cases ht'
    exact same
  · rw [kept.memo] at ht'
    exact steady.notes t' out' ht'

theorem passWithin_stays (valid : rd.Valid laws.gauge s R E) (wf : s.WellFormed) (hd : s.Denotes t a)
    (ha : a.Over sig) (still : a.Irreducible gt R E) (small : a.size < 2 ^ 32) (fits : a.size ≤ call.ceiling)
    (withheld : st.workspace.supply.Withholds a) (deep : t < n)
    (steady : Steady (a.size * rd.draws s + m) st s) : Stays m st s (rd.passWithin call n t) t := by
  induction n generalizing m st s t a with
  | zero => exact absurd deep (Nat.not_lt_zero t)
  | succ n ih =>
      rw [passWithin]
      refine .bindGet ?_
      split
      · rename_i out there
        obtain rfl := steady.notes t out there
        exact .pure wf ⟨rfl, steady.mono (Nat.le_add_left _ _), .refl _⟩
      · refine .bindStore ?_
        obtain ⟨node, hnode⟩ := Store.exists_node hd.1
        rw [hnode]
        cases node with
        | var v =>
            obtain rfl := hd.unique (wf.denotes_var hnode)
            rw [Term.size_var, Nat.one_mul] at steady
            exact settle_stays laws decides grows valid wf hd ha still small fits withheld steady
        | app f args =>
            obtain rfl := hd.unique ⟨hd.1, wf.below.term_app hnode⟩
            have shared : Steady ((args.map fun arg => (s.term arg).size * rd.draws s).sum + (rd.draws s + m))
                st s := by
              rw [Term.size_app, List.map_map, Nat.add_mul, Nat.one_mul, Nat.add_assoc,
                ← List.sum_map_mul_right] at steady
              exact steady
            refine (mapM_stays wf (fun arg harg m st₁ s₁ wf₁ le₁ later₁ steady₁ => ?_) shared).bind ?_
            · have mem : s.term arg ∈ args.map s.term := List.mem_map_of_mem harg
              have lt := wf.below hnode arg harg
              have hd' : s.Denotes arg (s.term arg) := Store.denotes_term (Nat.lt_trans lt hd.1)
              have less := Nat.le_of_lt (Term.size_lt_of_mem (f := f) mem)
              rw [← draws_eq valid.hasEquations wf wf₁ le₁] at steady₁
              exact ih (valid.mono wf wf₁ le₁) wf₁ (hd'.mono wf wf₁ le₁) ((Term.over_app_iff.1 ha).2 _ mem)
                (still.arg mem) (Nat.lt_of_le_of_lt less small) (less.trans fits)
                ((withheld.of_vars fun v hv => Term.mem_vars_app.2 ⟨_, mem, hv⟩).later later₁)
                (Nat.lt_of_lt_of_le lt (Nat.le_of_lt_succ deep)) steady₁
            · rintro outs st₁ s₁ wf₁ le₁ ⟨same, steady₁, later₁⟩
              rw [same]
              -- the node is in the store already
              have there : s₁.Ensures (Store.app f args) fun q s' => q = t ∧ s' = s₁ := by
                have same : Store.app f args s₁ = (t, s₁) := by
                  rw [Store.app, Store.intern, wf₁.index.2 (le₁ _ _ hnode)]
                rw [Store.Ensures, same]
                exact ⟨wf₁, le_refl s₁, rfl, rfl⟩
              refine .bindLift there ?_
              rintro _ _ - - ⟨rfl, rfl⟩
              rw [← draws_eq valid.hasEquations wf wf₁ le₁] at steady₁
              exact (settle_stays laws decides grows (valid.mono wf wf₁ le₁) wf₁ (hd.mono wf wf₁ le₁) ha still small
                fits (withheld.later later₁) steady₁).mono
                (fun _ _ _ _ _ h => ⟨h.1, h.2.1, later₁.trans h.2.2⟩) fun _ _ _ _ no => no

/-- A new reducer returns an irreducible term as it is if its nodes can be counted. -/
theorem normalize_stays (valid : rd.Valid laws.gauge s R E) (wf : s.WellFormed) (counted : s.Counted)
    (hd : s.Denotes t a) (ha : a.Over sig) (still : a.Irreducible gt R E) (small : a.size < 2 ^ 32)
    (fresh : st.memo = {}) (withheld : st.workspace.supply.Withholds a)
    (enough : st.workspace.supply.Provides (a.size * rd.draws s)) (passes : rd.maxPasses ≠ 0) :
    TermM.Ensures st s (rd.normalize t) (fun out _ _ => out = t) fun _ _ => False := by
  have steady : Steady (a.size * rd.draws s + 0) st s := by
    refine ⟨counted, fun t out ht => ?_, enough⟩
    rw [fresh] at ht
    simp at ht
  obtain ⟨left, more⟩ := Nat.exists_eq_succ_of_ne_zero passes
  rw [normalize]
  refine .bindStore ?_
  rw [more, passUntilFixed, pass]
  refine TermM.Ensures.bind (.bindStore (passWithin_stays (m := 0) laws decides grows valid wf hd ha still small ?_
    withheld (Nat.lt_of_lt_of_le hd.1 (Nat.le_add_right _ _)) steady)) ?_
  · dsimp only
    rw [counted.sizeOf_eq hd small]
    exact Nat.le_add_right _ _
  · rintro _ st₁ s₁ wf₁ le₁ ⟨rfl, -, -⟩
    refine .bindModify ?_
    rw [if_pos rfl]
    exact .pure wf₁ rfl

end

/-- Whatever became of the targets before, what a reducer returns is reached from the target, is smaller if it
differs from it, and is irreducible. A new reducer returns it again if its nodes are fewer than what a word can
count. -/
theorem Reached.normalize_irreducible {s₁ s₂ : Store} {q : Ref} (laws : ReductionOrder sig gt)
    (decides : rd.order.Decides sig gt) (grows : rd.order.Grows) (wf : s.WellFormed)
    (made : Store.Grown .empty s) (rules : ∀ e ∈ rd.rules, s.Directed sig gt e)
    (equations : s.HasAll sig rd.equations) (reached : rd.Reached sig s st s₁) (hd : s₁.Denotes t a)
    (ha : a.Over sig) (ran : rd.normalize t st s₁ = ((.ok q, st'), s₂)) :
    ∃ u, s₂.Denotes q u ∧ laws.gauge.Reduces (s.theory rd.rules) (s.theory rd.equations) a u ∧
      (u = a ∨ gt a u) ∧ u.Irreducible gt (s.theory rd.rules) (s.theory rd.equations) ∧
      (u.size < 2 ^ 32 → ∀ (w : Workspace) (s₃ : Store), s₃.WellFormed → Store.Grown s₂ s₃ →
        w.supply.Withholds u → w.supply.Provides (u.size * rd.draws s) →
        ∃ st₃ s₄, rd.normalize q { workspace := w } s₃ = ((.ok q, st₃), s₄)) := by
  have valid := Valid.of_directed laws decides rules equations
  have known : rd.Reached laws.gauge.sig s st s₁ := reached
  obtain ⟨wf₁, grown₁, noted⟩ := known.noted valid grows wf
  have valid₁ := valid.mono wf wf₁ grown₁.le
  have spec := normalize_spec valid₁ wf₁ noted hd ha
  have grown₂ := (normalize_tracks (Q := fun _ _ => True) grows.tracks t st s₁).1
  rw [TermM.Ensures, ran] at spec
  rw [ran] at grown₂
  obtain ⟨wf₂, le₂, -, u, hu, chain, settled⟩ := spec
  have inSig : u.Over sig := chain.inSig ha
  have still := laws.irreducible equations.fits inSig (settled trivial)
  refine ⟨u, hu, chain, chain.le valid.descends ha, still, fun small w s₃ wf₃ grown₃ withheld enough => ?_⟩
  have passes : rd.maxPasses ≠ 0 := by
    intro none
    have fails : TermM.Ensures st s₁ (rd.normalize t) (fun _ _ _ => False) fun _ _ => True := by
      rw [normalize]
      refine .bindStore ?_
      rw [none]
      exact .throw wf₁ trivial
    rw [TermM.Ensures, ran] at fails
    exact fails.2.2
  have grown := (grown₁.trans grown₂).trans grown₃
  have counted : s₃.Counted := Store.empty_counted.grown (made.trans grown) wf₃.below
  rw [← draws_eq equations wf wf₃ grown.le] at enough
  have stays : TermM.Ensures { workspace := w } s₃ (rd.normalize q) (fun out _ _ => out = q) fun _ _ => False :=
    normalize_stays laws decides grows (valid.mono wf wf₃ grown.le) wf₃ counted (hu.mono wf₂ wf₃ grown₃.le) inSig
      still small rfl withheld enough passes
  obtain ⟨_, st₃, s₄, again, -, -, rfl⟩ := stays.exists_eq
  exact ⟨st₃, s₄, again⟩

/-- A rule, an equation, and a term with its normal form. -/
def swapping : List Equation × Store :=
  Equation.listOfTerms [
    (.app (.symbol ⟨1⟩) [.app (.symbol ⟨1⟩) [.var 0]], .var 0),
    (.app (.symbol ⟨0⟩) [.var 0, .var 1], .app (.symbol ⟨0⟩) [.var 1, .var 0]),
    (.app (.symbol ⟨0⟩) [.app (.symbol ⟨1⟩) [.app (.symbol ⟨1⟩) [.app (.symbol ⟨1⟩) [.app (.symbol ⟨2⟩) []]]],
        .app (.symbol ⟨2⟩) []],
      .app (.symbol ⟨0⟩) [.app (.symbol ⟨2⟩) [], .app (.symbol ⟨1⟩) [.app (.symbol ⟨2⟩) []]])] .empty

def swapper : Reducer where
  order := .lpo forgetting []
  rules := [⟨2, 0⟩]
  equations := [⟨4, 5⟩]

theorem swapping_wellFormed : swapping.2.WellFormed := by
  rw [swapping]
  apply Store.wellFormed_listOfTerms
  simp [Term.over_app_iff, Signature.full, Term.Over.var]

theorem swapping_terms :
    swapping.2.Means ⟨2, 0⟩ (.app (.symbol ⟨1⟩) [.app (.symbol ⟨1⟩) [.var 0]], .var 0) ∧
    swapping.2.Means ⟨4, 5⟩ (.app (.symbol ⟨0⟩) [.var 0, .var 1], .app (.symbol ⟨0⟩) [.var 1, .var 0]) ∧
    swapping.2.Means ⟨10, 11⟩
      (.app (.symbol ⟨0⟩) [.app (.symbol ⟨1⟩) [.app (.symbol ⟨1⟩) [.app (.symbol ⟨1⟩) [.app (.symbol ⟨2⟩) []]]],
        .app (.symbol ⟨2⟩) []],
      .app (.symbol ⟨0⟩) [.app (.symbol ⟨2⟩) [], .app (.symbol ⟨1⟩) [.app (.symbol ⟨2⟩) []]]) := by
  unfold Store.Means Store.Denotes
  decide +kernel

theorem swapper_rules : ∀ e ∈ swapper.rules, swapping.2.Directed (.interned forgetting)
    (Lpo.Gt (Precedence.compare forgetting (.ranking []))) e := by
  rw [swapper, List.forall_mem_singleton]
  refine ⟨_, _, swapping_terms.1, ?_, .var 0, .inside (List.mem_singleton_self _) (.arg (List.mem_singleton_self _))⟩
  simp [Term.over_app_iff, Term.Over.var, named_forgetting]

theorem swapper_equations : swapping.2.HasAll (.interned forgetting) swapper.equations := by
  rw [swapper, Store.HasAll, List.forall_mem_singleton]
  refine ⟨_, _, swapping_terms.2.1, ?_, ?_⟩
  · simp [Term.over_app_iff, Term.Over.var, named_forgetting]
  · simp [Term.over_app_iff, Term.Over.var, named_forgetting]

theorem exists_eq_of_ok {σ ε α : Type} {a : α} {x : (Except ε α × σ) × Store} (h : x.1.1 = .ok a) :
    ∃ w s, x = ((.ok a, w), s) := by
  obtain ⟨⟨outcome, w⟩, s⟩ := x
  exact ⟨w, s, congrArg (fun outcome => ((outcome, w), s)) h⟩

theorem normalize_irreducible_swapper :
    ∃ st s u, swapper.normalize 10 {} swapping.2 = ((.ok 11, st), s) ∧ s.Denotes 11 u ∧
      u.Irreducible (Lpo.Gt (Precedence.compare forgetting (.ranking [])))
        (swapping.2.theory swapper.rules) (swapping.2.theory swapper.equations) ∧
      ∃ st' s', swapper.normalize 11 {} s = ((.ok 11, st'), s') := by
  obtain ⟨-, -, target⟩ := swapping_terms
  have returned : (swapper.normalize 10 {} swapping.2).1.1 = .ok 11 := by decide +kernel
  obtain ⟨st, s, ran⟩ := exists_eq_of_ok returned
  have laws := Lpo.reductionOrder (Precedence.lawful forgetting [])
  have decides : swapper.order.Decides _ _ := Order.lpo_decides forgetting []
  have grows : swapper.order.Grows := fun _ _ => Lpo.greater_grows _ _ _
  have wf := swapping_wellFormed
  have new : swapper.Reached laws.gauge.sig swapping.2 {} swapping.2 := .new {}
  have start : swapping.2.Denotes 10 _ := target.1
  have normal : swapping.2.Denotes 11 _ := target.2
  have inSig : (Term.app (.symbol ⟨0⟩) [.app (.symbol ⟨1⟩) [.app (.symbol ⟨1⟩) [.app (.symbol ⟨1⟩)
      [.app (.symbol ⟨2⟩) []]]], .app (.symbol ⟨2⟩) []]).Over (.interned forgetting) := by
    simp [Term.over_app_iff, named_forgetting]
  have next := new.target start inSig
  rw [ran] at next
  obtain ⟨wf', grown, -⟩ := next.noted
    (Valid.of_directed laws decides swapper_rules swapper_equations) grows wf
  obtain ⟨u, hu, -, -, still, again⟩ := Reached.normalize_irreducible laws decides grows wf
    (Store.listOfTerms_grows _ .empty) swapper_rules swapper_equations new start inSig ran
  refine ⟨st, s, u, ran, hu, still, ?_⟩
  obtain rfl := hu.unique (normal.mono wf wf' grown.le)
  refine again (by decide +kernel) {} _ wf' (.refl _) ?_ (by decide +kernel)
  intro v hv
  simp at hv

/-- A term that doubles with each level. -/
def balanced : Nat → Term
  | 0 => .app (.symbol ⟨2⟩) []
  | n + 1 => .app (.symbol ⟨0⟩) [balanced n, balanced n]

/-- Its reference in a store, where each level takes one entry. -/
def storeBalanced : Nat → StoreM Ref
  | 0 => Store.app (.symbol ⟨2⟩) []
  | n + 1 => do
    let r ← storeBalanced n
    Store.app (.symbol ⟨0⟩) [r, r]

theorem size_balanced (n : Nat) : (balanced n).size + 1 = 2 ^ (n + 1) := by
  induction n with
  | zero => rfl
  | succ n ih =>
      rw [balanced, Term.size_app]
      simp only [List.map_cons, List.map_nil, List.sum_cons, List.sum_nil]
      omega

theorem balanced_over (n : Nat) : (balanced n).Over (.interned forgetting) := by
  induction n with
  | zero => simp [balanced, Term.over_app_iff, named_forgetting]
  | succ n ih => simp [balanced, Term.over_app_iff, named_forgetting, ih]

theorem storeBalanced_spec (n : Nat) (wf : s.WellFormed) :
    s.Ensures (storeBalanced n) fun r s' => s'.Denotes r (balanced n) := by
  induction n with
  | zero => exact Store.app_spec wf .nil
  | succ n ih =>
      rw [storeBalanced]
      exact ih.bind fun r s₁ wf₁ _ hr => Store.app_spec wf₁ (.cons hr (.cons hr .nil))

/-- A large term, and a term around it whose node count wraps around to zero. -/
def wrapping : (Ref × Ref) × Store :=
  (do
    let r ← storeBalanced 31
    let q ← Store.app (.symbol ⟨1⟩) [r]
    return (r, q) : StoreM (Ref × Ref)) .empty

def idler : Reducer where
  order := .lpo forgetting []

theorem wrapping_spec : wrapping.2.WellFormed ∧ wrapping.2.Denotes 31 (balanced 31) ∧
    wrapping.2.Denotes 32 (.app (.symbol ⟨1⟩) [balanced 31]) := by
  have spec : Store.empty.Ensures (do
      let r ← storeBalanced 31
      let q ← Store.app (.symbol ⟨1⟩) [r]
      return (r, q) : StoreM (Ref × Ref)) fun refs s' => s'.Denotes refs.1 (balanced 31) ∧
        s'.Denotes refs.2 (.app (.symbol ⟨1⟩) [balanced 31]) :=
    (storeBalanced_spec 31 Store.empty_wellFormed).bind fun r s₁ wf₁ _ hr =>
      (Store.app_spec wf₁ (.cons hr .nil)).bind fun q s₂ wf₂ le₂ hq => .pure wf₂ ⟨hr.mono wf₁ wf₂ le₂, hq⟩
  obtain ⟨wf, -, here, there⟩ := spec
  have refs : wrapping.1 = (31, 32) := by decide +kernel
  rw [← wrapping, refs] at here there
  exact ⟨wf, here, there⟩

/-- After the large term the reducer returns the term around it, and a new reducer gives it up as too large. -/
theorem exists_normalize_diverged : ∃ gt, ReductionOrder (.interned forgetting) gt ∧
    idler.order.Decides (.interned forgetting) gt ∧
    ∃ st s u, idler.Reached (.interned forgetting) wrapping.2 st s ∧ s.Denotes 32 u ∧
      u.Over (.interned forgetting) ∧ u.size = 2 ^ 32 ∧ (idler.normalize 32 st s).1.1 = .ok 32 ∧
      (idler.normalize 32 {} (idler.normalize 32 st s).2).1.1 = .error (.diverged 32 9 0) := by
  obtain ⟨wf, here, there⟩ := wrapping_spec
  have laws := Lpo.reductionOrder (Precedence.lawful forgetting [])
  have decides : idler.order.Decides _ _ := Order.lpo_decides forgetting []
  have grows : idler.order.Grows := fun _ _ => Lpo.greater_grows _ _ _
  have new : idler.Reached laws.gauge.sig wrapping.2 {} wrapping.2 := .new {}
  have before := new.target here (balanced_over 31)
  obtain ⟨wf', grown, -⟩ := before.noted (Valid.of_directed laws decides nofun nofun) grows wf
  refine ⟨_, laws, decides, _, _, _, before, there.mono wf wf' grown.le, ?_, ?_, by decide +kernel,
    by decide +kernel⟩
  · simp [Term.over_app_iff, named_forgetting, balanced_over]
  · have size := size_balanced 31
    rw [Term.size_app]
    simp only [List.map_cons, List.map_nil, List.sum_cons, List.sum_nil]
    omega

end Reducer
end OrderedCompletion
