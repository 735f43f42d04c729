import OrderedCompletion.Proofs.Answers
import OrderedCompletion.Proofs.Ceilings

/-! A reducer that has treated other targets before answers what a new one answers, unless one of them was
larger and the new one gives up because of the ceiling. -/

namespace OrderedCompletion

theorem Store.hasAll_full {s : Store} {es : List Equation} (wf : s.WellFormed)
    (known : ∀ e ∈ es, e.lhs < s.size ∧ e.rhs < s.size) : s.HasAll .full es := by
  intro e he
  have hl := denotes_term (known e he).1
  have hr := denotes_term (known e he).2
  exact ⟨_, _, ⟨hl, hr⟩, hl.over_full wf, hr.over_full wf⟩

namespace Reducer

open TermM (Ends)

variable {rd : Reducer} {s s₁ s₂ : Store} {st : ReduceState} {gt : Term → Term → Prop} {t q : Ref}
variable {R E : List (Term × Term)} {a : Term} {as : List Term} {top : Term → Term} {X : Term → Prop}
variable {c m : Nat}

/-- What a new reducer and its store come to as targets are given to it in turn, whatever becomes of these.
Others may put terms into the store. -/
inductive Treats (rd : Reducer) (s : Store) : List Term → ReduceState → Store → Prop
  | new (w : Workspace) : Treats rd s [] { workspace := w } s
  | grow {as : List Term} {st : ReduceState} {s₁ s₂ : Store} : Treats rd s as st s₁ → Store.Grown s₁ s₂ →
      s₂.WellFormed → Treats rd s as st s₂
  | target {as : List Term} {st : ReduceState} {s₁ : Store} {t : Ref} {a : Term} : Treats rd s as st s₁ →
      s₁.Denotes t a → Treats rd s (as ++ [a]) (rd.normalize t st s₁).1.2 (rd.normalize t st s₁).2

theorem bounded_nothing (counted : s.Counted) (nothing : st.memo = {}) :
    Bounded top (fun _ => False) c st s where
  noted := noted_nothing nothing
  args := by
    intro t f args ht
    rw [nothing] at ht
    simp at ht
  all := nofun
  counted := counted

/-- All that is noted may be left out. -/
theorem Bounded.exempt (h : Bounded top X m st s) :
    Bounded top (fun a => ∃ t ∈ st.memo, s.Denotes t a) c st s where
  noted := by
    intro t out there
    obtain ⟨a, b, hd, hout, same, -⟩ := h.noted t out there
    exact ⟨a, b, hd, hout, same, .inl ⟨t, Std.TreeMap.mem_iff_isSome_getElem?.2 (there ▸ rfl), hd⟩⟩
  args := h.args
  all := id
  counted := h.counted

theorem Bounded.capped (h : Bounded top X c st s) (le : c ≤ m)
    (small : ∀ a, X a → (Term.pass top a).wordSize ≤ m) : Bounded top (fun _ => False) m st s where
  noted := by
    intro t out there
    obtain ⟨a, b, hd, hout, rfl, fits⟩ := h.noted t out there
    exact ⟨a, _, hd, hout, rfl, .inr (fits.elim (small a) fun fits => fits.trans le)⟩
  args := h.args
  all := nofun
  counted := h.counted

/-- No ceiling is above this one. -/
abbrev summit (rd : Reducer) : Nat := 2 ^ 32 + rd.maxGrowth

theorem ceiling_le (rd : Reducer) (a : Term) : a.wordSize + rd.maxGrowth ≤ rd.summit :=
  Nat.add_le_add_right (Nat.le_of_lt (Nat.mod_lt _ (by decide))) _

/-- Ceilings below a bound keep what is noted below it. -/
theorem normalize_bounded (valid : rd.Binding s .full gt R E) (grows : rd.order.Grows) (wf : s.WellFormed)
    (bounded : Bounded (Term.top gt R E) (fun _ => False) m st s) (hd : s.Denotes t a)
    (le : a.wordSize + rd.maxGrowth ≤ m) : Ends st s (rd.normalize t) fun result st' s' =>
      Bounded (Term.top gt R E) (fun _ => False) m st' s' ∧
      Reports s' t (Term.settle (Term.top gt R E) (fun a => ∃ t ∈ st.memo, s.Denotes t a)
        (a.wordSize + rd.maxGrowth) rd.maxPasses 0 a) result := by
  refine (normalize_ends valid grows wf bounded.exempt hd (hd.over_full wf)).mono ?_
  rintro result st' s' - - ⟨bounded', reports⟩
  refine ⟨bounded'.capped le fun b ⟨t, ht, hb⟩ => ?_, reports⟩
  exact (bounded.fits ht hb).resolve_left id

theorem Treats.bounded (h : rd.Treats s as st s₁) (valid : rd.Binding s .full gt R E) (grows : rd.order.Grows)
    (wf : s.WellFormed) (counted : s.Counted) :
    s₁.WellFormed ∧ Store.Grown s s₁ ∧ ∀ m, (∀ b ∈ as, b.wordSize + rd.maxGrowth ≤ m) →
      Bounded (Term.top gt R E) (fun _ => False) m st s₁ := by
  induction h with
  | new w => exact ⟨wf, .refl s, fun m _ => bounded_nothing counted rfl⟩
  | grow _ grown wf₂ ih =>
      obtain ⟨wf₁, grown₁, bounded⟩ := ih
      exact ⟨wf₂, grown₁.trans grown, fun m le => (bounded m le).grown wf₁ wf₂ grown⟩
  | @target as st s₁ t a _ hd ih =>
      obtain ⟨wf₁, grown₁, bounded⟩ := ih
      have valid₁ := valid.mono wf wf₁ grown₁.le
      have tracks : TermM.Tracks (fun _ _ => True) (rd.normalize t) _ := normalize_tracks grows.tracks t
      have step : ∀ m, (∀ b ∈ as, b.wordSize + rd.maxGrowth ≤ m) → a.wordSize + rd.maxGrowth ≤ m → _ :=
        fun m others le => normalize_bounded valid₁ grows wf₁ (bounded m others) hd le
      have next := step rd.summit (fun b _ => rd.ceiling_le b) (rd.ceiling_le a)
      refine ⟨next.1, grown₁.trans (tracks st s₁).1, fun m le => ?_⟩
      rw [List.forall_mem_append, List.forall_mem_singleton] at le
      exact (step m le.1 le.2).2.2.1

/-- The runs on two references to a term report the same. -/
def Agree (t q : Ref) (x y : (Except ReduceError Ref × ReduceState) × Store) : Prop :=
  ∃ report, Reports x.2 t report x.1.1 ∧ Reports y.2 q report y.1.1

/-- The run reports that a term has more nodes than allowed. -/
def GivesUp (c : Nat) (t : Ref) (x : (Except ReduceError Ref × ReduceState) × Store) : Prop :=
  ∃ u passes, Reports x.2 t (.error (u, passes)) x.1.1 ∧ c < u.wordSize

/-- This is so if the order answers as a relation says in all stores. -/
theorem Treats.agree_or_givesUp (h : rd.Treats s as st s₁) (valid : rd.Binding s .full gt R E)
    (grows : rd.order.Grows) (wf : s.WellFormed) (counted : s.Counted) (hd : s₁.Denotes t a) (w : Workspace)
    (wf₂ : s₂.WellFormed) (grown₂ : Store.Grown s s₂) (hq : s₂.Denotes q a) :
    Agree t q (rd.normalize t st s₁) (rd.normalize q { workspace := w } s₂) ∨
      (∃ b ∈ as, a.wordSize < b.wordSize) ∧
        GivesUp (a.wordSize + rd.maxGrowth) q (rd.normalize q { workspace := w } s₂) := by
  obtain ⟨wf₁, grown₁, bounded⟩ := h.bounded valid grows wf counted
  have before := bounded rd.summit fun b _ => rd.ceiling_le b
  have shared := (normalize_ends (valid.mono wf wf₁ grown₁.le) grows wf₁
    (before.exempt (c := a.wordSize + rd.maxGrowth)) hd (hd.over_full wf₁)).2.2.2
  have nothing : Bounded (Term.top gt R E) (fun _ => False) (a.wordSize + rd.maxGrowth)
      { workspace := w } s₂ :=
    bounded_nothing (counted.grown grown₂ wf₂.below) rfl
  have alone := (normalize_ends (valid.mono wf wf₂ grown₂.le) grows wf₂ nothing hq (hq.over_full wf₂)).2.2.2
  rcases @Term.settle_noted (Term.top gt R E) (fun a => ∃ t ∈ st.memo, s₁.Denotes t a)
    (a.wordSize + rd.maxGrowth) rd.maxPasses 0 a with same | ⟨u, passes, fails, large, t', ht', hu⟩
  · rw [same] at shared
    exact .inl ⟨_, shared, alone⟩
  · rw [fails] at alone
    refine .inr ⟨?_, _, passes, alone, large⟩
    -- otherwise the noted term would fit under the ceiling
    by_contra none
    have low : ∀ b ∈ as, b.wordSize + rd.maxGrowth ≤ a.wordSize + rd.maxGrowth := fun b hb =>
      Nat.add_le_add_right (Nat.not_lt.1 fun less => none ⟨b, hb, less⟩) _
    exact absurd (((bounded _ low).fits ht' hu).resolve_left id) (Nat.not_le.2 large)

/-- The reducer with the order that goes by a relation in all stores. -/
noncomputable abbrev settled (rd : Reducer) (gt : Term → Term → Prop) : Reducer :=
  rd.withOrder (rd.order.settled WordSized gt)

section
variable (reads : rd.order.Reads WordSized .full gt)
include reads

theorem settled_grows : (rd.settled gt).order.Grows := fun r q s => (reads.tracked.greater r q s).1

/-- From counted stores both reducers lead to the same. -/
theorem normalize_settled (valid : (rd.settled gt).Binding s .full gt R E) (wf : s.WellFormed)
    (bounded : Bounded (Term.top gt R E) (fun _ => False) rd.summit st s) (hd : s.Denotes t a) :
    (rd.settled gt).normalize t st s = rd.normalize t st s := by
  obtain ⟨grown, same⟩ := normalize_tracks (r := rd.settled gt) reads.tracked t st s
  have wf' := (normalize_bounded valid (settled_grows reads) wf bounded hd (rd.ceiling_le a)).1
  exact (same (bounded.counted.grown grown wf'.below)).symm

theorem Treats.settled (h : rd.Treats s as st s₁) (valid : (rd.settled gt).Binding s .full gt R E)
    (wf : s.WellFormed) (counted : s.Counted) : (rd.settled gt).Treats s as st s₁ := by
  induction h with
  | new w => exact .new w
  | grow _ grown wf₂ ih => exact ih.grow grown wf₂
  | @target as st s₁ t a _ hd ih =>
      obtain ⟨wf₁, grown₁, bounded⟩ := ih.bounded valid (settled_grows reads) wf counted
      have next := ih.target hd
      rwa [normalize_settled reads (valid.mono wf wf₁ grown₁.le) wf₁ (bounded _ fun b _ => rd.ceiling_le b)
        hd] at next

variable (wf : s.WellFormed) (made : Store.Grown .empty s) (rules : s.HasAll .full rd.rules)
  (equations : s.HasAll .full rd.equations)
  (binding : ∀ d ∈ s.sides rd.rules ++ bothWays (s.sides rd.equations), ∀ v ∈ d.2.vars, v ∈ d.1.vars)
include wf made rules equations binding

theorem settled_binding :
    (rd.settled gt).Binding s .full gt (s.sides rd.rules) (s.sides rd.equations) ∧ s.Counted :=
  ⟨⟨reads.decides, rules, equations, rfl, rfl, binding⟩, Store.empty_counted.grown made wf.below⟩

theorem Treats.later (treated : rd.Treats s as st s₁) : s₁.WellFormed ∧ Store.Grown s s₁ := by
  obtain ⟨valid, counted⟩ := settled_binding reads wf made rules equations binding
  have treated' := treated.settled reads valid wf counted
  obtain ⟨wf₁, grown₁, -⟩ := treated'.bounded valid (settled_grows reads) wf counted
  exact ⟨wf₁, grown₁⟩

/-- After any targets a reducer answers for a further one what a new reducer with the same rules, equations
and budgets answers for it in a store of its own, or one of them was larger and the new reducer gives up
because of the ceiling. -/
theorem Treats.agree_alone (treated : rd.Treats s as st s₁) (hd : s₁.Denotes t a) (w : Workspace)
    (wf₂ : s₂.WellFormed) (grown₂ : Store.Grown s s₂) (hq : s₂.Denotes q a) :
    Agree t q (rd.normalize t st s₁) (rd.normalize q { workspace := w } s₂) ∨
      (∃ b ∈ as, a.wordSize < b.wordSize) ∧
        GivesUp (a.wordSize + rd.maxGrowth) q (rd.normalize q { workspace := w } s₂) := by
  obtain ⟨valid, counted⟩ := settled_binding reads wf made rules equations binding
  have grows := settled_grows reads
  have treated' := treated.settled reads valid wf counted
  obtain ⟨wf₁, grown₁, bounded⟩ := treated'.bounded valid grows wf counted
  have outcome := treated'.agree_or_givesUp valid grows wf counted hd w wf₂ grown₂ hq
  rwa [normalize_settled reads (valid.mono wf wf₁ grown₁.le) wf₁ (bounded _ fun b _ => rd.ceiling_le b) hd,
    normalize_settled reads (valid.mono wf wf₂ grown₂.le) wf₂
      (bounded_nothing (counted.grown grown₂ wf₂.below) rfl) hq] at outcome

end

/-- Two rules, and a term that both of them reduce. -/
def unwrapping : List Equation × Store :=
  Equation.listOfTerms [
    (.app (.symbol ⟨0⟩) [], .app (.symbol ⟨1⟩) [.app (.symbol ⟨2⟩) []]),
    (.app (.symbol ⟨3⟩) [.var 0], .var 0),
    (.app (.symbol ⟨3⟩) [.app (.symbol ⟨0⟩) []], .app (.symbol ⟨0⟩) [])] .empty

/-- It lets no term grow. -/
def unwrapper : Reducer where
  order := .ofKind (Precedence.compare default .empty) .lpo
  rules := [⟨0, 2⟩, ⟨4, 3⟩]
  maxGrowth := 0

theorem unwrapper_reads :
    unwrapper.order.Reads WordSized .full (Order.Tells (Precedence.compare default .empty) .lpo) :=
  (Order.ofKind_judges _ .lpo).reads

theorem unwrapping_wellFormed : unwrapping.2.WellFormed := by
  rw [unwrapping]
  apply Store.wellFormed_listOfTerms
  simp [Term.over_app_iff, Signature.full, Term.Over.var]

theorem unwrapping_made : Store.Grown .empty unwrapping.2 := Store.listOfTerms_grows _ .empty

theorem unwrapper_rules : unwrapping.2.HasAll .full unwrapper.rules :=
  Store.hasAll_full unwrapping_wellFormed (by decide +kernel)

theorem unwrapper_binding :
    ∀ d ∈ unwrapping.2.sides unwrapper.rules ++ bothWays (unwrapping.2.sides unwrapper.equations),
      ∀ v ∈ d.2.vars, v ∈ d.1.vars := by decide +kernel

theorem unwrapping_terms : unwrapping.2.Denotes 0 (.app (.symbol ⟨0⟩) []) ∧
    unwrapping.2.Denotes 5 (.app (.symbol ⟨3⟩) [.app (.symbol ⟨0⟩) []]) := by
  unfold Store.Denotes
  decide +kernel

/-- The larger term gets the same answer after the smaller one was given up. -/
theorem Treats.agree_alone_unwrapper : ∃ st s₁, unwrapper.Treats unwrapping.2 [.app (.symbol ⟨0⟩) []] st s₁ ∧
    Agree 5 5 (unwrapper.normalize 5 st s₁) (unwrapper.normalize 5 {} unwrapping.2) := by
  obtain ⟨small, large⟩ := unwrapping_terms
  have wf := unwrapping_wellFormed
  have start : unwrapper.Treats unwrapping.2 [] { workspace := {} } unwrapping.2 := .new {}
  have treated := start.target small
  obtain ⟨wf₁, grown₁⟩ :=
    treated.later unwrapper_reads wf unwrapping_made unwrapper_rules nofun unwrapper_binding
  refine ⟨_, _, treated, (treated.agree_alone unwrapper_reads wf unwrapping_made unwrapper_rules nofun
    unwrapper_binding (large.mono wf wf₁ grown₁.le) {} wf (.refl _) large).resolve_right ?_⟩
  rintro ⟨⟨b, hb, less⟩, -⟩
  rw [List.nil_append, List.mem_singleton] at hb
  subst hb
  exact absurd less (by decide +kernel)

/-- The smaller term is returned in normal form after the larger one, and a new reducer gives it up. -/
theorem exists_shared_ok_alone_diverged :
    (∀ d ∈ unwrapping.2.sides unwrapper.rules ++ bothWays (unwrapping.2.sides unwrapper.equations),
      ∀ v ∈ d.2.vars, v ∈ d.1.vars) ∧
    ∃ st s₁, unwrapper.Treats unwrapping.2 [.app (.symbol ⟨3⟩) [.app (.symbol ⟨0⟩) []]] st s₁ ∧
      (unwrapper.normalize 0 st s₁).1.1 = .ok 2 ∧
      (unwrapper.normalize 0 {} unwrapping.2).1.1 = .error (.diverged 0 2 0) :=
  ⟨unwrapper_binding, _, _, (Treats.new {}).target unwrapping_terms.2, by decide +kernel, by decide +kernel⟩

end Reducer
end OrderedCompletion
