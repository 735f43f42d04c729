import Mathlib.Data.Sym.Sym2
import OrderedCompletion.Proofs.Judging

/-! Equations are unordered pairs: when the check at the end of a run does not depend on the direction in which
they are written. -/

namespace OrderedCompletion

variable {R W W' : Theory} {d d' : Term × Term} {l r t u : Term} {gt : Term → Term → Prop}

/-- The equations without their direction. -/
def unordered (W : Theory) : Set (Sym2 Term) := (fun d => Sym2.mk d.1 d.2) '' W

theorem mem_unordered : Sym2.mk l r ∈ unordered W ↔ (l, r) ∈ W ∨ (r, l) ∈ W := by
  constructor
  · rintro ⟨⟨x, y⟩, hx, same⟩
    rcases Sym2.eq_iff.1 same with ⟨rfl, rfl⟩ | ⟨rfl, rfl⟩
    · exact .inl hx
    · exact .inr hx
  · rintro (forth | back)
    · exact ⟨(l, r), forth, rfl⟩
    · exact ⟨(r, l), back, Sym2.eq_swap⟩

theorem mem_directions_iff : (l, r) ∈ Gauge.Directions R W ↔ (l, r) ∈ R ∨ Sym2.mk l r ∈ unordered W := by
  rw [mem_unordered]
  rfl

theorem directions_eq (same : unordered W' = unordered W) : Gauge.Directions R W' = Gauge.Directions R W := by
  ext ⟨l, r⟩
  rw [mem_directions_iff, mem_directions_iff, same]

theorem unoriented_iff : Unoriented gt W ↔ ∀ l r, Sym2.mk l r ∈ unordered W → ¬ gt l r := by
  constructor
  · intro none l r hl
    rcases mem_unordered.1 hl with forth | back
    · exact (none l r forth).1
    · exact (none r l back).2
  · intro none l r hl
    exact ⟨none l r (mem_unordered.2 (.inl hl)), none r l (mem_unordered.2 (.inr hl))⟩

theorem unordered_eq_empty : unordered W = ∅ ↔ W = ∅ := Set.image_eq_empty

theorem Store.theory_eq_empty {s : Store} {es : List Equation} : s.theory es = ∅ ↔ es = [] := by
  constructor
  · intro none
    cases es with
    | nil => rfl
    | cons e es =>
        have mem : (s.term e.lhs, s.term e.rhs) ∈ s.theory (e :: es) := ⟨e, List.mem_cons_self, rfl⟩
        rw [none] at mem
        exact mem.elim
  · rintro rfl
    exact Store.theory_nil

/-- A directed equation leads from one term to another at the top. -/
def Leads (d : Term × Term) (t u : Term) : Prop := ∃ θ : Var → Term, d.1.subst θ = t ∧ d.2.subst θ = u

theorem instance_iff : Instance W t u ↔ ∃ d ∈ W, Leads d t u := by
  constructor
  · rintro ⟨l, r, θ, hl, left, right⟩
    exact ⟨(l, r), hl, θ, left, right⟩
  · rintro ⟨⟨l, r⟩, hl, θ, left, right⟩
    exact ⟨l, r, θ, hl, left, right⟩

/-- Turned around, the equation is an instance of itself. -/
def Mirrored (d : Term × Term) : Prop := Leads d d.2 d.1

theorem Mirrored.leads_swap (h : Mirrored d) : Leads d.swap t u ↔ Leads d t u := by
  obtain ⟨η, forth, back⟩ := h
  constructor
  · rintro ⟨θ, left, right⟩
    refine ⟨fun v => (η v).subst θ, ?_, ?_⟩
    · rw [← Term.subst_subst, forth, ← left, Prod.fst_swap]
    · rw [← Term.subst_subst, back, ← right, Prod.snd_swap]
  · rintro ⟨θ, left, right⟩
    refine ⟨fun v => (η v).subst θ, ?_, ?_⟩
    · rw [Prod.fst_swap, ← Term.subst_subst, back, left]
    · rw [Prod.snd_swap, ← Term.subst_subst, forth, right]

/-- If the right side has only variables of the left one, it has all of them. -/
theorem Mirrored.bound (h : Mirrored d) (bound : ∀ v ∈ d.2.vars, v ∈ d.1.vars) :
    ∀ v ∈ d.1.vars, v ∈ d.2.vars := by
  obtain ⟨η, forth, back⟩ := h
  have restores : Term.Restores η η d.1 := by rw [Term.Restores, forth, back]
  intro v hv
  have there := Term.restores_iff.1 restores v hv
  obtain ⟨w, hw⟩ := Term.exists_var_of_subst_eq_var there
  -- the variable that stands for `v` is one of both sides, and `v` stands for it
  have inside : w ∈ d.2.vars := by
    rw [← forth]
    exact Term.mem_vars_subst.2 ⟨v, hv, by rw [hw]; exact Term.mem_vars_var.2 rfl⟩
  rw [hw, Term.subst_var] at there
  rw [← forth]
  exact Term.mem_vars_subst.2 ⟨w, bound w inside, by rw [there]; exact Term.mem_vars_var.2 rfl⟩

theorem Mirrored.symm (h : Mirrored d) : Mirrored d.swap := by
  obtain ⟨η, forth, back⟩ := h
  exact ⟨η, back, forth⟩

theorem Mirrored.use_swap {ok : Term → Term → Prop} (h : Mirrored d) : Term.use ok d.swap = Term.use ok d := by
  have fires : ∀ t u, Term.Fires ok d.swap t u ↔ Term.Fires ok d t u := by
    intro t u
    constructor
    · exact fun fires => ⟨h.symm.bound fires.bound, fires.admitted, h.leads_swap.1 fires.leads⟩
    · exact fun fires => ⟨h.bound fires.bound, fires.admitted, h.leads_swap.2 fires.leads⟩
  funext t
  by_cases some : ∃ u, Term.Fires ok d t u
  · obtain ⟨u, here⟩ := some
    rw [here.use_eq, ((fires t u).2 here).use_eq]
  · rw [Term.use_eq_self fun u here => some ⟨u, here⟩,
      Term.use_eq_self fun u here => some ⟨u, (fires t u).1 here⟩]

/-- The equation is the same, or it is turned around and mirrored. -/
def Turned (d d' : Term × Term) : Prop := d' = d ∨ Mirrored d ∧ d' = d.swap

theorem Turned.leads_iff (h : Turned d d') : Leads d' t u ↔ Leads d t u := by
  rcases h with rfl | ⟨mirrored, rfl⟩
  · exact .rfl
  · exact mirrored.leads_swap

theorem Turned.unordered_eq (h : Turned d d') : Sym2.mk d'.1 d'.2 = Sym2.mk d.1 d.2 := by
  rcases h with rfl | ⟨-, rfl⟩
  · rfl
  · exact Sym2.eq_swap

theorem Turned.use_eq {ok : Term → Term → Prop} (h : Turned d d') :
    Term.use ok d' = Term.use ok d ∧ Term.use ok d'.swap = Term.use ok d.swap := by
  rcases h with rfl | ⟨mirrored, rfl⟩
  · exact ⟨rfl, rfl⟩
  · rw [Prod.swap_swap, mirrored.use_swap]
    exact ⟨rfl, rfl⟩

theorem useAll_bothWays_eq {ok : Term → Term → Prop} {E E' : List (Term × Term)}
    (h : List.Forall₂ Turned E E') : Term.useAll ok (bothWays E') = Term.useAll ok (bothWays E) := by
  induction h with
  | nil => rfl
  | @cons d d' E E' here _ ih =>
      obtain ⟨forth, back⟩ : Term.use ok d' = Term.use ok d ∧ Term.use ok d'.swap = Term.use ok d.swap :=
        here.use_eq
      funext t
      have later := fun t => congrFun ih t
      simp only [bothWays, Term.useAll, List.flatMap_cons, List.foldl_append, List.foldl_cons,
        List.foldl_nil, forth, back] at later ⊢
      exact later _

namespace Engine

variable {e e₁ e₂ : Engine} {s s₁ s₂ : Store}

/-- Two states have the same rules and, up to the direction in which they are written, the same equations. -/
structure SameSystem (s₁ : Store) (e₁ : Engine) (s₂ : Store) (e₂ : Engine) : Prop where
  rules : s₂.theory e₂.rules = s₁.theory e₁.rules
  equations : unordered (s₂.theory e₂.equations) = unordered (s₁.theory e₁.equations)

/-- What the direction may have an effect on is the same: which equations are subsumed, and which normal forms
are found. -/
structure SameEffects (gt : Term → Term → Prop) (s₁ : Store) (e₁ : Engine) (s₂ : Store) (e₂ : Engine) :
    Prop where
  subsumed : ∀ l r, Instance (s₁.theory e₁.equations) l r ↔ Instance (s₂.theory e₂.equations) l r
  normal : ∀ t u, Term.NormalForm (e₁.top gt s₁) t u ↔ Term.NormalForm (e₂.top gt s₂) t u

theorem SameEffects.joins_iff {c : Term × Term} (h : SameEffects gt s₁ e₁ s₂ e₂) :
    Joins (e₁.top gt s₁) (s₁.theory e₁.equations) c ↔ Joins (e₂.top gt s₂) (s₂.theory e₂.equations) c := by
  simp only [Joins, h.subsumed, h.normal]

theorem SameSystem.equations_eq_nil (h : SameSystem s₁ e₁ s₂ e₂) : e₁.equations = [] ↔ e₂.equations = [] := by
  rw [← s₁.theory_eq_empty, ← s₂.theory_eq_empty, ← unordered_eq_empty, ← h.equations, unordered_eq_empty]

/-- Mirrored equations may be turned around where they stand. -/
theorem same_of_turned (rules : s₂.sides e₂.rules = s₁.sides e₁.rules)
    (config : e₂.config.unfailing = e₁.config.unfailing)
    (turned : List.Forall₂ Turned (s₁.sides e₁.equations) (s₂.sides e₂.equations)) :
    SameSystem s₁ e₁ s₂ e₂ ∧ SameEffects gt s₁ e₁ s₂ e₂ := by
  have theory_eq : ∀ {es₁ es₂ : List Equation}, s₂.sides es₂ = s₁.sides es₁ → s₂.theory es₂ = s₁.theory es₁ := by
    intro es₁ es₂ same
    ext d
    rw [← Store.mem_sides, same, Store.mem_sides]
  have active : List.Forall₂ Turned (s₁.sides e₁.activeEquations) (s₂.sides e₂.activeEquations) := by
    rw [activeEquations, activeEquations, config]
    split
    · exact turned
    · exact .nil
  refine ⟨⟨theory_eq rules, ?_⟩, fun l r => ?_, fun t u => ?_⟩
  · ext c
    constructor
    · rintro ⟨d', hd', rfl⟩
      obtain ⟨d, hd, turned⟩ := Store.exists_of_forall₂_right turned (Store.mem_sides.2 hd')
      exact ⟨d, Store.mem_sides.1 hd, turned.unordered_eq.symm⟩
    · rintro ⟨d, hd, rfl⟩
      obtain ⟨d', hd', turned⟩ := Store.exists_of_forall₂_left turned (Store.mem_sides.2 hd)
      exact ⟨d', Store.mem_sides.1 hd', turned.unordered_eq⟩
  · rw [instance_iff, instance_iff]
    constructor
    · rintro ⟨d, hd, leads⟩
      obtain ⟨d', hd', turned⟩ := Store.exists_of_forall₂_left turned (Store.mem_sides.2 hd)
      exact ⟨d', Store.mem_sides.1 hd', turned.leads_iff.2 leads⟩
    · rintro ⟨d', hd', leads⟩
      obtain ⟨d, hd, turned⟩ := Store.exists_of_forall₂_right turned (Store.mem_sides.2 hd')
      exact ⟨d, Store.mem_sides.1 hd, turned.leads_iff.1 leads⟩
  · have same : e₂.top gt s₂ = e₁.top gt s₁ := by
      funext t
      rw [top, top, Term.top, Term.top, rules, useAll_bothWays_eq active]
    rw [same]

/-- What makes the check say yes does not depend on the direction then. -/
theorem SameSystem.closes_iff (h : SameSystem s₁ e₁ s₂ e₂) (effects : SameEffects gt s₁ e₁ s₂ e₂) :
    Closes gt s₁ e₁ ↔ Closes gt s₂ e₂ := by
  have join : AllJoin gt (e₁.top gt s₁) (s₁.theory e₁.rules) (s₁.theory e₁.equations) ↔
      AllJoin gt (e₂.top gt s₂) (s₂.theory e₂.rules) (s₂.theory e₂.equations) := by
    simp only [AllJoin, effects.joins_iff, h.rules, directions_eq h.equations]
  rw [Closes, Closes, h.equations_eq_nil, join, unoriented_iff, unoriented_iff, h.equations]

end Engine

namespace Problem

open Engine

variable {Q : Term → UInt32 → Prop} {sig : Signature} {p p₁ p₂ : Problem} {ctx ctx₁ ctx₂ : Context}
variable {e e₁ e₂ : Engine} {s s₁ s₂ : Store} {b b₁ b₂ : Bool}

/-- A state that a run reaches, which is not at its end, and where the check does not fail. All terms that the
check stores have a property. -/
structure Checks (p : Problem) (Q : Term → UInt32 → Prop) (sig : Signature) (ctx : Context) (e : Engine)
    (s : Store) (b : Bool) : Prop where
  posed : p.Posed sig
  distinct : ({ source := p.source } : Supply).Distinct
  runs : p.Runs sig e s
  running : e.status = .running
  order : ctx.order = p.order
  all : (after (checkTerminal ctx) e s).2.All Q
  ok : answer (checkTerminal ctx) e s = .ok b

/-- The check says what it should, and sets the status to that. -/
theorem Checks.outcome (h : p.Checks Q sig ctx e s b) (judges : p.order.Judges Q sig gt) :
    (b = true ↔ Closes gt s e) ∧ (after (checkTerminal ctx) e s).1.status =
      if b then if e.equations = [] then .complete else .groundComplete else .running := by
  have tracks : ctx.order.Tracks Q (p.order.settled Q gt) := h.order ▸ judges.tracks
  obtain ⟨grown, same⟩ := checkTerminal_tracks tracks e s
  obtain ⟨wf, checkable⟩ := h.runs.checkable judges h.posed h.distinct (h.all.of_grown grown)
  have exact : TermM.Ensures e s (checkTerminal (ctx.withOrder (p.order.settled Q gt))) _ _ :=
    checkTerminal_exact checkable wf h.running
  obtain ⟨-, -, out⟩ := exact
  have ok := h.ok
  rw [same h.all] at out
  rw [answer] at ok
  rw [ok] at out
  exact out

/-- Two checks of the same system agree if the direction in which equations are written has no effect on which
equations are subsumed and on which normal forms are found. -/
theorem checkTerminal_undirected (h₁ : p₁.Checks Q sig ctx₁ e₁ s₁ b₁) (h₂ : p₂.Checks Q sig ctx₂ e₂ s₂ b₂)
    (judges : p₁.order.Judges Q sig gt) (order : p₂.order = p₁.order) (system : SameSystem s₁ e₁ s₂ e₂)
    (effects : SameEffects gt s₁ e₁ s₂ e₂) :
    b₁ = b₂ ∧ (after (checkTerminal ctx₁) e₁ s₁).1.status = (after (checkTerminal ctx₂) e₂ s₂).1.status := by
  obtain ⟨says₁, status₁⟩ := h₁.outcome judges
  obtain ⟨says₂, status₂⟩ := h₂.outcome (order ▸ judges)
  have same : b₁ = b₂ := by
    rw [Bool.eq_iff_iff, says₁, says₂]
    exact system.closes_iff effects
  refine ⟨same, ?_⟩
  simp only [status₁, status₂, same, system.equations_eq_nil]

/-- With the lexicographic path order any terms may be stored. -/
theorem checks_lpo {symbols : SymbolTable} {ranked : List Symbol} (order : p.order = .lpo symbols ranked)
    (posed : p.Posed (.interned symbols)) (supply : p.source = .counting firstFresh)
    (runs : p.Runs (.interned symbols) e s) (running : e.status = .running) (same : ctx.order = p.order)
    (ok : answer (checkTerminal ctx) e s = .ok b) :
    p.Checks (fun _ _ => True) (.interned symbols) ctx e s b := by
  have distinct : ({ source := p.source } : Supply).Distinct := supply ▸ trivial
  have laws := Lpo.reductionOrder (Precedence.lawful symbols ranked)
  have decides : p.order.Decides (.interned symbols) _ := order ▸ Order.lpo_decides symbols ranked
  have obeys : p.order.Obeys laws.gauge := decides.obeys laws
  have kept := Runs.kept (G := laws.gauge) runs posed obeys fun _ => distinct_start posed distinct
  have wf' := (checkTerminal_spec (same ▸ obeys) kept.wellFormed posed.fits kept.presents).1
  exact ⟨posed, distinct, runs, running, same, ⟨wf'.below, fun _ _ => trivial⟩, ok⟩

section
open OrderedCompletion.Order (fiveNames fork fork_over)

/-- The problem that equations between terms with five names pose. -/
def stating (pairs : List (Term × Term)) : Problem := ofTerms (.lpo fiveNames []) pairs

def statingContext (pairs : List (Term × Term)) : Context :=
  { symbols := fiveNames, order := (stating pairs).order, fuel := 5 }

/-- What the check answers at the start. -/
theorem stating_checks {pairs : List (Term × Term)}
    (inSig : ∀ d ∈ pairs, d.1.Over (.interned fiveNames) ∧ d.2.Over (.interned fiveNames))
    (running : (stating pairs).start.1.status = .running)
    (ok : answer (checkTerminal (statingContext pairs)) (stating pairs).start.1 (stating pairs).start.2 =
      .ok b) :
    (stating pairs).Checks (fun _ _ => True) (.interned fiveNames) (statingContext pairs)
      (stating pairs).start.1 (stating pairs).start.2 b :=
  checks_lpo rfl (posed_ofTerms inSig) rfl .start running rfl ok

/-- Two arguments change places. -/
def swapping : Term × Term := (fork (.var 0) (.var 1), fork (.var 1) (.var 0))

theorem swapping_mirrored : Mirrored swapping := ⟨fun v => if v = 0 then .var 1 else .var 0, rfl, rfl⟩

theorem checkTerminal_undirected_swapping :
    answer (checkTerminal (statingContext [swapping])) (stating [swapping]).start.1
      (stating [swapping]).start.2 = .ok true ∧
    answer (checkTerminal (statingContext [swapping.swap])) (stating [swapping.swap]).start.1
      (stating [swapping.swap]).start.2 = .ok true ∧
    (after (checkTerminal (statingContext [swapping])) (stating [swapping]).start.1
        (stating [swapping]).start.2).1.status =
      (after (checkTerminal (statingContext [swapping.swap])) (stating [swapping.swap]).start.1
        (stating [swapping.swap]).start.2).1.status := by
  have inSig : ∀ v w, (fork (.var v) (.var w)).Over (.interned fiveNames) := fun v w =>
    fork_over (.var v) (.var w)
  have outcome : (stating [swapping]).start.1.status = .running ∧
      (stating [swapping.swap]).start.1.status = .running ∧
      answer (checkTerminal (statingContext [swapping])) (stating [swapping]).start.1
        (stating [swapping]).start.2 = .ok true ∧
      answer (checkTerminal (statingContext [swapping.swap])) (stating [swapping.swap]).start.1
        (stating [swapping.swap]).start.2 = .ok true ∧
      (stating [swapping.swap]).start.1.config.unfailing = (stating [swapping]).start.1.config.unfailing ∧
      (stating [swapping.swap]).start.2.sides (stating [swapping.swap]).start.1.rules =
        (stating [swapping]).start.2.sides (stating [swapping]).start.1.rules ∧
      (stating [swapping]).start.2.sides (stating [swapping]).start.1.equations = [swapping] ∧
      (stating [swapping.swap]).start.2.sides (stating [swapping.swap]).start.1.equations =
        [swapping.swap] := by
    decide +kernel
  obtain ⟨running, running', yes, yes', config, rules, equations, equations'⟩ := outcome
  have checks := stating_checks (by simp [swapping, inSig]) running yes
  have checks' := stating_checks (by simp [swapping, inSig]) running' yes'
  have turned : List.Forall₂ Turned ((stating [swapping]).start.2.sides (stating [swapping]).start.1.equations)
      ((stating [swapping.swap]).start.2.sides (stating [swapping.swap]).start.1.equations) := by
    rw [equations, equations']
    exact .cons (.inr ⟨swapping_mirrored, rfl⟩) .nil
  obtain ⟨system, effects⟩ := same_of_turned rules config turned
  have judges : (stating [swapping]).order.Judges _ (.interned fiveNames) _ :=
    Lpo.judges (Precedence.lawful fiveNames [])
  exact ⟨yes, yes', (checkTerminal_undirected checks checks' judges rfl system effects).2⟩

/-- Three arguments move by one place. Twice the move is the move back, and that is no instance of it. -/
def rotation : Term × Term :=
  (.app (.symbol ⟨1⟩) [.var 0, .var 1, .var 2], .app (.symbol ⟨1⟩) [.var 1, .var 2, .var 0])

/-- The same rules and the same equation, stored once and in both directions, and yet different answers. -/
theorem checkTerminal_directed :
    (stating [rotation]).Checks (fun _ _ => True) (.interned fiveNames) (statingContext [rotation])
      (stating [rotation]).start.1 (stating [rotation]).start.2 false ∧
    (stating [rotation, rotation.swap]).Checks (fun _ _ => True) (.interned fiveNames)
      (statingContext [rotation, rotation.swap]) (stating [rotation, rotation.swap]).start.1
      (stating [rotation, rotation.swap]).start.2 true ∧
    SameSystem (stating [rotation]).start.2 (stating [rotation]).start.1
      (stating [rotation, rotation.swap]).start.2 (stating [rotation, rotation.swap]).start.1 := by
  have outcome : (stating [rotation]).start.1.status = .running ∧
      (stating [rotation, rotation.swap]).start.1.status = .running ∧
      answer (checkTerminal (statingContext [rotation])) (stating [rotation]).start.1
        (stating [rotation]).start.2 = .ok false ∧
      answer (checkTerminal (statingContext [rotation, rotation.swap]))
        (stating [rotation, rotation.swap]).start.1 (stating [rotation, rotation.swap]).start.2 = .ok true ∧
      (stating [rotation, rotation.swap]).start.1.rules = [] ∧ (stating [rotation]).start.1.rules = [] ∧
      (stating [rotation]).start.2.sides (stating [rotation]).start.1.equations = [rotation] ∧
      (stating [rotation, rotation.swap]).start.2.sides (stating [rotation, rotation.swap]).start.1.equations =
        [rotation, rotation.swap] := by
    decide +kernel
  obtain ⟨running, running', no, yes, rules', rules, equations, equations'⟩ := outcome
  have inSig : ∀ d ∈ [rotation, rotation.swap], d.1.Over (.interned fiveNames) ∧
      d.2.Over (.interned fiveNames) := by
    have left : rotation.1.Over (.interned fiveNames) := .app rfl (by simp [Term.Over.var])
    have right : rotation.2.Over (.interned fiveNames) := .app rfl (by simp [Term.Over.var])
    simp [left, right]
  refine ⟨stating_checks (fun d hd => inSig d (by simp_all)) running no, stating_checks inSig running' yes,
    ?_, ?_⟩
  · rw [rules, rules', Store.theory_nil, Store.theory_nil]
  · have mem : ∀ {s : Store} {es : List Equation}, s.theory es = {d | d ∈ s.sides es} := by
      intro s es
      ext d
      exact Store.mem_sides.symm
    rw [mem, mem, equations, equations']
    ext c
    simp [unordered, Sym2.eq_swap, eq_comm]

end

end Problem
end OrderedCompletion
