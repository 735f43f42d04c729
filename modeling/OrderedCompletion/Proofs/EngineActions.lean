import OrderedCompletion.Engine.Step
import OrderedCompletion.Proofs.Reduction
import OrderedCompletion.Proofs.Superposition

/-! What the actions of a run do that leave its equations and rules alone. -/

namespace OrderedCompletion

theorem TermM.Ensures.toStore {σ ε α : Type} {w : σ} {s : Store} {x : TermM σ ε α}
    {Q : α → σ → Store → Prop} {F : σ → Store → Prop} (h : TermM.Ensures w s x Q F) :
    s.Ensures (x.run.run w) fun out s' => match out.1 with
      | .ok a => Q a out.2 s'
      | .error _ => F out.2 s' := h

namespace Engine

variable {G : Gauge} {ctx : Context} {e e' e'' : Engine} {s s' : Store} {eq : Equation}
variable {r : Ref} {a b : Term} {α : Type}

/-- Equations, rules, status and configuration stay; fresh variables are used up. -/
structure Beside (e e' : Engine) : Prop where
  config : e'.config = e.config
  equations : e'.equations = e.equations
  rules : e'.rules = e.rules
  status : e'.status = e.status
  later : e.workspace.supply.Later e'.workspace.supply

/-- The pairs seen stay as well. -/
structure Aside (e e' : Engine) : Prop extends Beside e e' where
  seen : e'.seen = e.seen

theorem Beside.refl (e : Engine) : Beside e e := ⟨rfl, rfl, rfl, rfl, .refl _⟩

theorem Beside.trans (h : Beside e e') (h' : Beside e' e'') : Beside e e'' :=
  ⟨h'.config.trans h.config, h'.equations.trans h.equations, h'.rules.trans h.rules,
    h'.status.trans h.status, h.later.trans h'.later⟩

theorem Aside.refl (e : Engine) : Aside e e := ⟨.refl e, rfl⟩

theorem Aside.trans (h : Aside e e') (h' : Aside e' e'') : Aside e e'' :=
  ⟨h.toBeside.trans h'.toBeside, h'.seen.trans h.seen⟩

theorem Beside.activeEquations (h : Beside e e') : e'.activeEquations = e.activeEquations := by
  rw [Engine.activeEquations, Engine.activeEquations, h.config, h.equations]

/-- What an action comes to that leaves equations and rules alone, also if it fails. -/
abbrev Leaves (e : Engine) (s : Store) (x : EngineM α) (Q : α → Store → Prop) : Prop :=
  TermM.Ensures e s x (fun a e' s' => Aside e e' ∧ Q a s') fun e' _ => Aside e e'

section
variable {β : Type} {x : EngineM α} {f : α → EngineM β} {Q Q' : α → Store → Prop} {R : β → Store → Prop}

theorem Leaves.after (aside : Aside e e') (hx : Leaves e' s x Q) :
    TermM.Ensures e' s x (fun a e'' s' => Aside e e'' ∧ Q a s') fun e'' _ => Aside e e'' :=
  TermM.Ensures.mono hx (fun _ _ _ _ _ h => ⟨aside.trans h.1, h.2⟩) fun _ _ _ _ h => aside.trans h

theorem Leaves.thread (hx : Leaves e s x Q)
    (hf : ∀ a e' s', s'.WellFormed → s ≤ s' → Aside e e' → Q a s' → Leaves e' s' (f a) R) :
    Leaves e s (x >>= f) R := by
  refine TermM.Ensures.bind hx ?_
  rintro a e₁ s₁ wf₁ le₁ ⟨aside, ha⟩
  exact (hf a e₁ s₁ wf₁ le₁ aside ha).after aside

theorem Leaves.bind (hx : Leaves e s x Q)
    (hf : ∀ a e' s', s'.WellFormed → s ≤ s' → Q a s' → Leaves e' s' (f a) R) :
    Leaves e s (x >>= f) R :=
  hx.thread fun a e' s' wf' le' _ => hf a e' s' wf' le'

theorem Leaves.mono (hx : Leaves e s x Q)
    (h : ∀ a s', s'.WellFormed → s ≤ s' → Q a s' → Q' a s') : Leaves e s x Q' :=
  TermM.Ensures.mono hx (fun _ _ _ wf' le' hQ => ⟨hQ.1, h _ _ wf' le' hQ.2⟩) fun _ _ _ _ h => h

theorem Leaves.pure {a : α} (wf : s.WellFormed) (h : Q a s) : Leaves e s (Pure.pure a) Q :=
  TermM.Ensures.pure wf ⟨.refl e, h⟩

end

theorem fail_spec {failure : Failure} {Q : α → Engine → Store → Prop} {F : Engine → Store → Prop}
    (wf : s.WellFormed) (h : F e s) : TermM.Ensures e s (fail ctx failure : EngineM α) Q F :=
  .bindGet (.bindStore (.throw wf h))

theorem onWorkspace_spec {x : TermM Workspace Halt α} {Q : α → Store → Prop}
    (h : TermM.Ensures e.workspace s x (fun a w' s' => w'.supply = e.workspace.supply ∧ Q a s')
      fun _ _ => False) : Leaves e s (onWorkspace x) Q := by
  refine (TermM.Ensures.within h).mono ?_ ?_
  · rintro a _ s' - - ⟨w', rfl, same, ha⟩
    exact ⟨⟨⟨rfl, rfl, rfl, rfl, same ▸ .refl _⟩, rfl⟩, ha⟩
  · rintro _ s' - - ⟨w', -, no⟩
    exact no.elim

theorem ask_spec {r q : Ref} (obeys : ctx.order.Obeys G) (wf : s.WellFormed) (ha : s.Denotes r a)
    (hb : s.Denotes q b) (inSig : a.Over G.sig) (inSig' : b.Over G.sig) :
    Leaves e s (ask ctx r q) fun yes _ => (yes = true → G.gt a b) ∧
      (G.strict → yes = false → ¬ G.gt a b) :=
  onWorkspace_spec (Workspace.ask_spec obeys wf ha hb inSig inSig')

theorem orientable_spec (obeys : ctx.order.Obeys G) (wf : s.WellFormed) (has : s.Has G.sig eq) :
    Leaves e s (orientable ctx eq) fun yes _ => ∀ l r, s.Means eq (l, r) → yes = false → G.strict →
      ¬ G.gt l r ∧ ¬ G.gt r l := by
  obtain ⟨l, r, means, hl, hr⟩ := has
  refine onWorkspace_spec ((Workspace.askEither_spec obeys wf means.1 means.2 hl hr).mono ?_
    fun _ _ _ _ h => h)
  rintro yes w' s' - - ⟨same, -, no⟩
  refine ⟨same, fun l' r' means' no' strict => ?_⟩
  obtain rfl := means.1.unique means'.1
  obtain rfl := means.2.unique means'.2
  exact no strict no'

/-- Reserved variables will not be drawn. -/
theorem reserve_withholds (wf : s.WellFormed) (hd : s.Denotes r a) :
    TermM.Ensures e s (reserve r) (fun _ e' _ => Aside e e' ∧ e'.workspace.supply.Withholds a)
      fun e' _ => Aside e e' := by
  rw [reserve]
  refine TermM.Ensures.bindLift (Store.vars_spec wf hd) fun vs s₁ wf₁ le₁ hvs => ?_
  have later : TermM.Ensures e.workspace s₁
      (modify fun w => { w with supply := w.supply.reserve vs } : TermM Workspace Halt PUnit)
      (fun _ w' _ => e.workspace.supply.Later w'.supply ∧ w'.supply.Withholds a) (fun _ _ => False) :=
    .modify wf₁ ⟨Supply.reserve_later vs, fun v hv offered =>
      offered.2 (Supply.mem_reserve.2 (.inr (hvs.1 ▸ hv)))⟩
  refine (TermM.Ensures.within later).mono ?_ ?_
  · rintro _ _ s' - - ⟨w', rfl, later, withholds⟩
    exact ⟨⟨⟨rfl, rfl, rfl, rfl, later⟩, rfl⟩, withholds⟩
  · rintro _ s' - - ⟨w', -, no⟩
    exact no.elim

theorem reserve_spec (wf : s.WellFormed) (hd : s.Denotes r a) :
    Leaves e s (reserve r) fun _ _ => True :=
  (reserve_withholds wf hd).mono (fun _ _ _ _ _ h => ⟨h.1, trivial⟩) fun _ _ _ _ h => h

/-- A normalization that uses up the supply leaves everything else alone. -/
theorem reduceWith_spec {rules equations : List Equation} {action : Reducer → ReduceM α}
    {Q : α → Store → Prop}
    (h : ∀ (rd : Reducer) (st : ReduceState), rd.order = ctx.order → rd.rules = rules →
      rd.equations = equations → st.workspace = e.workspace → st.memo = {} →
      TermM.Ensures st s (action rd) (fun a st' s' =>
        st.workspace.supply.Later st'.workspace.supply ∧ Q a s')
        fun st' _ => st.workspace.supply.Later st'.workspace.supply) :
    Leaves e s (reduceWith ctx rules equations action) Q := by
  rw [reduceWith]
  refine .bindGet ?_
  refine TermM.Ensures.bindLift (h _ { workspace := e.workspace } rfl rfl rfl rfl rfl).toStore ?_
  rintro ⟨outcome, st⟩ s₁ wf₁ le₁ hout
  refine .bindSet ?_
  cases outcome with
  | ok a => exact .pure wf₁ ⟨⟨⟨rfl, rfl, rfl, rfl, hout.1⟩, rfl⟩, hout.2⟩
  | error err =>
      have aside : Aside e { e with workspace := st.workspace, metrics := e.metrics.recordReductionPasses st.passes } :=
        ⟨⟨rfl, rfl, rfl, rfl, hout⟩, rfl⟩
      cases err with
      | diverged start last passes => exact .bindStore (fail_spec wf₁ aside)
      | exhausted => exact fail_spec wf₁ aside
      | term err => exact fail_spec wf₁ aside

/-- Rules that go down, and equations, are fit for normalization. -/
structure Reducible (G : Gauge) (s : Store) (rules equations : List Equation) : Prop where
  hasRules : s.HasAll G.sig rules
  hasEquations : s.HasAll G.sig equations
  descends : G.Descends (s.theory rules)

theorem Reducible.valid {rules equations : List Equation} {rd : Reducer}
    (h : Reducible G s rules equations) (obeys : ctx.order.Obeys G) (order : rd.order = ctx.order)
    (hr : rd.rules = rules) (he : rd.equations = equations) :
    rd.Valid G s (s.theory rules) (s.theory equations) where
  obeys := order ▸ obeys
  hasRules := hr ▸ h.hasRules
  hasEquations := he ▸ h.hasEquations
  rules := by rw [hr]
  equations := by rw [he]
  descends := h.descends

theorem Reducible.mono {rules equations : List Equation} (h : Reducible G s rules equations)
    (wf : s.WellFormed) (wf' : s'.WellFormed) (le : s ≤ s') : Reducible G s' rules equations where
  hasRules := h.hasRules.mono wf wf' le
  hasEquations := h.hasEquations.mono wf wf' le
  descends := (h.hasRules.theory_eq wf wf' le).symm ▸ h.descends

theorem Reducible.of_subset {rules rules' equations : List Equation} (h : Reducible G s rules equations)
    (sub : rules' ⊆ rules) : Reducible G s rules' equations where
  hasRules := h.hasRules.of_subset sub
  hasEquations := h.hasEquations
  descends := fun x y hx => h.descends x y (Store.theory_mono sub hx)

theorem normalizeOne_spec {rules equations : List Equation} (obeys : ctx.order.Obeys G)
    (wf : s.WellFormed) (h : Reducible G s rules equations) (hd : s.Denotes r a) (ha : a.Over G.sig) :
    Leaves e s (normalizeOne ctx rules equations r) fun out s' =>
      Reducer.Normalizes G (s.theory rules) (s.theory equations) s' a out := by
  refine reduceWith_spec fun rd st order hr he _ memo => ?_
  exact (Reducer.normalize_spec (h.valid obeys order hr he) wf (Reducer.noted_nothing memo) hd ha).mono
    (fun _ _ _ _ _ h => h.imp_left (·.later)) fun _ _ _ _ h => h.later

theorem normalizeWith_spec {rules equations : List Equation} {rs : List Ref} {as : List Term}
    (obeys : ctx.order.Obeys G) (wf : s.WellFormed) (h : Reducible G s rules equations)
    (hd : s.DenotesAll rs as) (has : ∀ a ∈ as, a.Over G.sig) :
    Leaves e s (normalizeWith ctx rules equations rs) fun outs s' =>
      List.Forall₂ (Reducer.Normalizes G (s.theory rules) (s.theory equations) s') as outs := by
  refine reduceWith_spec fun rd st order hr he _ memo => ?_
  exact (Reducer.normalizeAll_spec (h.valid obeys order hr he) wf (Reducer.noted_nothing memo) hd has).mono
    (fun _ _ _ _ _ h => h.imp_left (·.later)) fun _ _ _ _ h => h.later

theorem normalizeSides_spec {l r : Term} (obeys : ctx.order.Obeys G) (wf : s.WellFormed)
    (h : Reducible G s e.rules e.activeEquations) (means : s.Means eq (l, r)) (hl : l.Over G.sig)
    (hr : r.Over G.sig) :
    Leaves e s (normalizeSides ctx eq) fun out s' =>
      Reducer.Normalizes G (s.theory e.rules) (s.theory e.activeEquations) s' l out.lhs ∧
      Reducer.Normalizes G (s.theory e.rules) (s.theory e.activeEquations) s' r out.rhs := by
  rw [normalizeSides]
  refine .bindGet (reduceWith_spec fun rd st order hrules heqs _ memo => ?_)
  have valid := h.valid obeys order hrules heqs
  refine ((Reducer.normalize_spec valid wf (Reducer.noted_nothing memo) means.1 hl).mono
    (fun _ _ _ _ _ h => h) fun _ _ _ _ h => h.later).bind ?_
  rintro lhs st₁ s₁ wf₁ le₁ ⟨⟨noted₁, later₁⟩, left⟩
  refine ((Reducer.normalize_spec (valid.mono wf wf₁ le₁) wf₁ noted₁ (means.2.mono wf wf₁ le₁) hr).mono
    (fun _ _ _ _ _ h => h) fun _ _ _ _ h => later₁.trans h.later).bind ?_
  rintro rhs st₂ s₂ wf₂ le₂ ⟨⟨-, later₂⟩, right⟩
  exact .pure wf₂ ⟨later₁.trans later₂, left.mono wf₁ wf₂ le₂, right⟩

/-- The pairs of donors that a superposition of an equation treats. -/
def donors (e : Engine) (eq : Equation) (withEquations : Bool) : List (Equation × Equation) :=
  if withEquations then Superposer.allDonors e.equations e.rules eq
  else Superposer.ruleDonors e.rules eq

/-- What holds of an equation, of the rules and, if they take part, of the equations in both directions holds
of both donors. -/
theorem forall_donors {D : Equation → Prop} {withEquations : Bool} (here : D eq) (rules : ∀ d ∈ e.rules, D d)
    (turned : withEquations = true → D eq.reversed ∧ ∀ d ∈ e.equations, D d ∧ D d.reversed) :
    ∀ donors ∈ e.donors eq withEquations, D donors.1 ∧ D donors.2 := by
  have both : ∀ {d c : Equation} {donors : Equation × Equation}, D d → D c → donors ∈ [(d, c), (c, d)] →
      D donors.1 ∧ D donors.2 := by
    intro d c donors hd hc mem
    rcases List.mem_pair.1 mem with rfl | rfl
    · exact ⟨hd, hc⟩
    · exact ⟨hc, hd⟩
  intro donors hdonors
  cases withEquations with
  | false =>
      obtain ⟨rule, hrule, mem⟩ := List.mem_flatMap.1 hdonors
      exact both here (rules rule hrule) mem
  | true =>
      obtain ⟨back, equations⟩ := turned rfl
      have sides : ∀ side ∈ [eq, eq.reversed], D side ∧ D side.reversed :=
        List.forall_mem_cons.2 ⟨⟨here, back⟩, List.forall_mem_singleton.2 ⟨back, here⟩⟩
      rcases List.mem_append.1 hdonors with hdonors | hdonors
      · obtain ⟨d, hd, mem⟩ := List.mem_flatMap.1 hdonors
        obtain ⟨side, hside, mem⟩ := List.mem_flatMap.1 mem
        obtain ⟨other, hother, mem⟩ := List.mem_flatMap.1 mem
        have known : D d ∧ D d.reversed := (Superposition.mem_foldl_addNew.1 hd).elim (equations d) (sides d)
        refine both (sides side hside).1 ?_ mem
        rcases List.mem_pair.1 hother with rfl | rfl
        · exact known.1
        · exact known.2
      · obtain ⟨rule, hrule, mem⟩ := List.mem_flatMap.1 hdonors
        obtain ⟨side, hside, mem⟩ := List.mem_flatMap.1 mem
        exact both (sides side hside).1 (rules rule hrule) mem

theorem superposition_spec {sp : Superposer} {T : Theory} {withEquations : Bool}
    (obeys : ctx.order.Obeys G) (wf : s.WellFormed)
    (donates : ∀ d ∈ e.donors eq withEquations, Superposer.Donates G s T d) :
    TermM.Ensures sp s (superposition ctx e eq withEquations)
      (fun pairs sp' s' => Superposer.Yields G sp sp' s' T (e.donors eq withEquations) pairs)
      fun sp' _ => sp.workspace.supply.Later sp'.workspace.supply := by
  cases withEquations with
  | false => exact Superposer.superposeAll_spec obeys wf donates
  | true => exact Superposer.superposeAll_spec obeys wf donates

/-- What a run knows when it superposes. -/
def superposer (e : Engine) : Superposer := { workspace := e.workspace, seen := e.seen }

theorem superpose_spec {T : Theory} {withEquations : Bool} (obeys : ctx.order.Obeys G)
    (wf : s.WellFormed) (donates : ∀ d ∈ e.donors eq withEquations, Superposer.Donates G s T d) :
    TermM.Ensures e s (superpose ctx eq withEquations) (fun pairs e' s' => Beside e e' ∧
      Superposer.Yields G e.superposer e'.superposer s' T (e.donors eq withEquations) pairs)
      fun e' _ => Beside e e' := by
  rw [superpose]
  refine .bindGet ?_
  refine .bindLift (superposition_spec obeys wf donates).toStore ?_
  rintro ⟨outcome, sp⟩ s₁ wf₁ le₁ hout
  refine .bindSet ?_
  cases outcome with
  | ok pairs => exact .pure wf₁ ⟨⟨rfl, rfl, rfl, rfl, hout.later⟩, hout⟩
  | error err => exact fail_spec wf₁ ⟨rfl, rfl, rfl, rfl, hout⟩

theorem superposeAfresh_spec {T : Theory} {withEquations : Bool} (obeys : ctx.order.Obeys G)
    (wf : s.WellFormed) (donates : ∀ d ∈ e.donors eq withEquations, Superposer.Donates G s T d) :
    Leaves e s (superposeAfresh ctx eq withEquations) fun pairs s' =>
      (∀ p ∈ pairs, Superposition.Follows G s' T p) ∧
      (G.strict → e.workspace.supply.Distinct → ∀ d ∈ e.donors eq withEquations,
        ∀ T', G.Covers (s'.theory pairs) T' → Connected G s' T' d) := by
  rw [superposeAfresh]
  refine .bindGet ?_
  refine .bindLift (superposition_spec obeys wf donates).toStore ?_
  rintro ⟨outcome, sp⟩ s₁ wf₁ le₁ hout
  refine .bindSet ?_
  cases outcome with
  | error err => exact fail_spec wf₁ ⟨⟨rfl, rfl, rfl, rfl, hout⟩, rfl⟩
  | ok pairs =>
      refine .pure wf₁ ⟨⟨⟨rfl, rfl, rfl, rfl, hout.later⟩, rfl⟩, hout.follows, ?_⟩
      intro strict distinct d hd T' cover
      rcases hout.connects strict distinct d (hout.seen d hd) with before | connected
      · simp [Index.contains] at before
      · exact connected T' cover

/-- An equation is an instance of one of a list. -/
def Subsumed (s : Store) (es : List Equation) (c : Equation) : Prop :=
  ∃ d ∈ es, ∃ l r θ, s.Means d (l, r) ∧ s.Means c (Term.subst θ l, Term.subst θ r)

theorem filterSubsumed_spec {worklist candidates : List Equation} {sig : Signature}
    (wf : s.WellFormed) (hw : s.HasAll sig worklist) (hc : s.HasAll sig candidates) :
    s.Ensures (filterSubsumed worklist candidates) fun kept s' => Store.SameTerms s s' ∧
      ∀ c, c ∈ kept ↔ c ∈ candidates ∧ ¬ Subsumed s worklist c := by
  rw [filterSubsumed]
  refine Store.Ensures.filterM wf (.refl s) fun c hmem s₁ wf₁ le₁ same₁ => ?_
  obtain ⟨a, b, means, -⟩ := hc c hmem
  have any : s₁.Ensures (worklist.anyM (·.subsumes c)) fun yes s₂ => Store.SameTerms s s₂ ∧
      (yes = true ↔ ∃ d ∈ worklist, ∃ l r θ, s.Means d (l, r) ∧
        s.Means c (Term.subst θ l, Term.subst θ r)) := by
    refine Store.Ensures.anyM wf₁ same₁ fun d hd s₂ wf₂ le₂ same₂ => ?_
    obtain ⟨l, r, means', -⟩ := hw d hd
    have le := le₁.trans le₂
    refine (Equation.subsumes_spec wf₂ (Equation.means_mono means' wf wf₂ le)
      (Equation.means_mono means wf wf₂ le)).mono fun yes s₃ _ _ h => ⟨same₂.trans h.1, ?_⟩
    rw [h.2]
    constructor
    · rintro ⟨θ, rfl, rfl⟩
      exact ⟨l, r, θ, means', means⟩
    · rintro ⟨l', r', θ, hd', hc'⟩
      obtain rfl := means'.1.unique hd'.1
      obtain rfl := means'.2.unique hd'.2
      exact ⟨θ, hc'.1.unique means.1, hc'.2.unique means.2⟩
  refine any.bind fun yes s₂ wf₂ _ h => .pure wf₂ ⟨h.1, ?_⟩
  rw [Bool.not_eq_true', ← Bool.not_eq_true, h.2]
  rfl

end Engine
end OrderedCompletion
