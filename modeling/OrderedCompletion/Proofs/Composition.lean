import OrderedCompletion.Proofs.Ceilings
import OrderedCompletion.Proofs.Completeness
import OrderedCompletion.Proofs.Divergence
import OrderedCompletion.Proofs.GroundCompleteness
import OrderedCompletion.Proofs.Pace

/-! Reducing the right sides of rules by the other rules comes to an end. A right side on which no other rule
is of use stays so, as left sides are never new; hence each rule is reduced or dropped at most once. -/

namespace OrderedCompletion

open TermM (Guards)

variable {sig : Signature} {gt : Term → Term → Prop} {s s' : Store} {r : Ref} {a : Term}
variable {rules before after : List Equation} {old new rule : Equation}

/-- Uses of rules that go down never fail. -/
theorem Reducer.Safe.of_descends {rd : Reducer} (laws : ReductionOrder sig gt)
    (decides : rd.order.Decides sig gt) (hasRules : s.HasAll sig rd.rules)
    (desc : laws.groundGauge.Descends (s.theory rd.rules)) (none : rd.equations = []) (wf : s.WellFormed)
    {P : Term → Term → Prop} : rd.Safe s (fun _ a => a.Over sig) P fun _ _ => True where
  top := by
    intro st s' t a wf' le hd ha _
    have binding : rd.Binding s sig gt (s.sides rd.rules) [] := by
      refine ⟨decides, hasRules, none ▸ nofun, rfl, by rw [none]; rfl, fun d hd => ?_⟩
      rw [bothWays, List.flatMap_nil, List.append_nil] at hd
      obtain ⟨hl, hr, down⟩ := desc d.1 d.2 (Store.mem_sides.1 hd)
      exact laws.vars_subset hl hr down
    exact (reduceTop_bound (binding.mono wf wf' le) wf' hd ha).mono (fun _ _ _ _ _ _ => trivial)
      fun _ _ _ _ h => h
  app := fun wf' _ _ hqs _ => (Store.app_spec wf' hqs).mono fun _ _ _ _ h => ⟨h, trivial⟩
  note := fun _ _ => trivial

namespace Store

/-- Another rule is of use on the right side of the rule. -/
def Busy (s : Store) (rules : List Equation) (rule : Equation) : Prop :=
  ∃ d ∈ rules, d ≠ rule ∧ ¬ s.Avoids rule.rhs d.lhs

open Classical in
/-- How many rules are still to be reduced. -/
noncomputable def load (s : Store) (rules : List Equation) : Nat := rules.countP fun rule => s.Busy rules rule

theorem load_le_length (s : Store) (rules : List Equation) : s.load rules ≤ rules.length :=
  List.countP_le_length

theorem load_anti (wf : s.WellFormed) (wf' : s'.WellFormed) (le : s ≤ s') : s'.load rules ≤ s.load rules := by
  classical
  refine List.countP_mono_left fun rule _ busy => ?_
  obtain ⟨d, hd, other, inside⟩ := of_decide_eq_true busy
  exact decide_eq_true ⟨d, hd, other, fun avoids => inside (avoids.mono wf wf' le)⟩

end Store

namespace Engine

variable {ctx : Context} {e e' : Engine} {G : Gauge}

/-- The rules after one was reduced or, if it became equal to another one, dropped. -/
abbrev composed (before : List Equation) (new : Equation) (after : List Equation) : List Equation :=
  if new ∈ before ++ after then before ++ after else before ++ new :: after

theorem countP_composed {p : Equation → Bool} (h : ¬ p new) :
    (composed before new after).countP p = (before ++ after).countP p := by
  rw [composed]
  split
  · rfl
  · rw [List.perm_middle.countP_eq, List.countP_cons_of_neg h]

theorem Composable.load_lt (h : Composable G s before old new after) (strict : G.strict)
    (nodup : (before ++ old :: after).Nodup) :
    s.load (composed before new after) < s.load (before ++ old :: after) := by
  classical
  let now : Equation → Bool := fun rule => s.Busy (composed before new after) rule
  let then_ : Equation → Bool := fun rule => s.Busy (before ++ old :: after) rule
  have apart : old ∉ before ++ after := (List.nodup_middle.1 nodup).notMem
  have known : ∀ c ∈ composed before new after, c ∈ before ++ after ∨ c = new := fun c => mem_composed.1
  -- what is of use on another rule now has been so before
  have earlier : ∀ d ∈ before ++ after, now d → then_ d := by
    intro d hd busy
    obtain ⟨c, hc, other, inside⟩ := of_decide_eq_true busy
    refine decide_eq_true ?_
    rcases known c hc with hc | rfl
    · exact ⟨c, subset_around hc, other, inside⟩
    · refine ⟨old, by simp, ?_, h.lhs ▸ inside⟩
      rintro rfl
      exact apart hd
  have done : ¬ now new := by
    intro busy
    obtain ⟨c, hc, other, inside⟩ := of_decide_eq_true busy
    exact inside (h.settled strict c ((known c hc).resolve_right other))
  have due : then_ old := by
    obtain ⟨d, hd, inside⟩ := h.used
    exact decide_eq_true ⟨d, subset_around hd, fun same => apart (same ▸ hd), inside⟩
  calc s.load (composed before new after)
      = (before ++ after).countP now := countP_composed done
    _ ≤ (before ++ after).countP then_ := List.countP_mono_left earlier
    _ < (old :: (before ++ after)).countP then_ := by
        rw [List.countP_cons_of_pos due]
        exact Nat.lt_succ_self _
    _ = s.load (before ++ old :: after) := List.perm_middle.symm.countP_eq then_

theorem normalizeOne_guards {P : Engine → Store → Prop} (laws : ReductionOrder sig gt)
    (decides : ctx.order.Decides sig gt) (wf : s.WellFormed) (h : Reducible laws.groundGauge s rules [])
    (hd : s.Denotes r a) (ha : a.Over sig) (onward : ∀ workspace passes s', P { e with
      workspace, metrics := e.metrics.recordReductionPasses passes } s') :
    Guards e s (normalizeOne ctx rules [] r) P Diverges := by
  refine reduceWith_guards (H := fun _ _ => True) (fun rd st order hrules none _ memo => ?_)
    fun st s' _ => onward _ _ s'
  have safe : rd.Safe s _ (Reducer.Passes laws.groundGauge (s.theory rules) (s.theory [])) _ :=
    .of_descends laws (order ▸ decides) (hrules ▸ h.hasRules) (hrules ▸ h.descends) none wf
  have obeys : ctx.order.Obeys laws.groundGauge := decides.obeys laws
  exact ((h.valid obeys order hrules none).walk wf).normalize_guards safe wf
    (Reducer.noted_nothing memo) hd ha trivial

/-- Looking for a rule to reduce reduces none yet. -/
theorem findComposable_guards {c : UInt64} (laws : ReductionOrder sig gt) (decides : ctx.order.Decides sig gt)
    (wf : s.WellFormed) (h : Reducible laws.groundGauge s (before ++ rules) [])
    (count : e.metrics.rulesComposed = c) :
    Guards e s (findComposable ctx before rules) (fun e' _ => e'.metrics.rulesComposed = c) Diverges := by
  have obeys : ctx.order.Obeys laws.groundGauge := decides.obeys laws
  induction rules generalizing before e s with
  | nil => exact .pure count
  | cons rule after ih =>
      rw [findComposable]
      obtain ⟨l, r, means, hl, hr⟩ := h.hasRules rule (by simp)
      have others := h.of_subset subset_around
      refine .bind (normalizeOne_spec obeys wf others means.2 hr)
        (normalizeOne_guards laws decides wf others means.2 hr fun _ _ _ => count) ?_
      intro rhs e₁ s₁ wf₁ le₁ _ count₁
      split
      · exact .pure count₁
      · refine ih wf₁ ?_ count₁
        rw [List.append_assoc]
        exact h.mono wf wf₁ le₁

/-- Rules that have become others: left sides are old, rules go down, and the same follows from them. -/
structure Recast (sig : Signature) (gt : Term → Term → Prop) (s : Store) (rules : List Equation) (s' : Store)
    (rules' : List Equation) : Prop where
  nodup : rules'.Nodup
  lefts : ∀ rule ∈ rules', ∃ d ∈ rules, rule.lhs = d.lhs
  directed : ∀ rule ∈ rules', s'.Directed sig gt rule
  derives : ∀ a b, Derives (s'.theory rules') a b ↔ Derives (s.theory rules) a b

theorem Recast.trans {s'' : Store} {rules' rules'' : List Equation} (h : Recast sig gt s rules s' rules')
    (h' : Recast sig gt s' rules' s'' rules'') : Recast sig gt s rules s'' rules'' where
  nodup := h'.nodup
  lefts := by
    intro rule hr
    obtain ⟨d, hd, same⟩ := h'.lefts rule hr
    obtain ⟨c, hc, same'⟩ := h.lefts d hd
    exact ⟨c, hc, same.trans same'⟩
  directed := h'.directed
  derives := fun a b => (h'.derives a b).trans (h.derives a b)

theorem reducible_of_directed (laws : ReductionOrder sig gt)
    (directed : ∀ rule ∈ rules, s.Directed sig gt rule) :
    Reducible laws.groundGauge s rules [] where
  hasRules := .of_directed directed
  hasEquations := nofun
  descends := by
    rintro l r ⟨rule, hr, same⟩
    obtain ⟨x, y, means, hx, hy, down⟩ := directed rule hr
    obtain ⟨rfl, rfl⟩ := Store.eq_of_means means same
    exact ⟨hx, hy, down⟩

theorem Reducible.directed {laws : ReductionOrder sig gt} (h : Reducible laws.groundGauge s rules []) :
    ∀ rule ∈ rules, s.Directed sig gt rule := by
  intro rule hr
  obtain ⟨l, r, means, -⟩ := h.hasRules rule hr
  exact ⟨l, r, means, h.descends l r (Store.mem_theory hr means)⟩

theorem Recast.of_le (laws : ReductionOrder sig gt) (wf : s.WellFormed) (wf' : s'.WellFormed) (le : s ≤ s')
    (nodup : rules.Nodup) (directed : ∀ rule ∈ rules, s.Directed sig gt rule) :
    Recast sig gt s rules s' rules := by
  have reducible := reducible_of_directed laws directed
  refine ⟨nodup, fun rule hr => ⟨rule, hr, rfl⟩, (reducible.mono wf wf' le).directed, fun a b => ?_⟩
  rw [reducible.hasRules.theory_eq wf wf' le]

/-- One round of the loop. -/
theorem Composable.recast (laws : ReductionOrder sig gt)
    (h : Composable laws.groundGauge s before old new after) (nodup : (before ++ old :: after).Nodup)
    (directed : ∀ rule ∈ before ++ old :: after, s.Directed sig gt rule) :
    Recast sig gt s (before ++ old :: after) s (composed before new after) := by
  have reducible := reducible_of_directed laws directed
  -- a run with these rules only
  let run : Engine := { rules := before ++ old :: after }
  have fine : Fine laws.groundGauge s run := ⟨reducible.hasEquations, reducible.hasRules, reducible.descends,
    False.elim⟩
  have advances := compose_advances fine rfl h fun d => mem_composed
  have alone : ∀ rules : List Equation, s.theory [] ∪ s.theory rules = s.theory rules := fun rules => by
    rw [Store.theory_nil, Set.empty_union]
  have sound := advances.sound
  have covers := advances.covers
  simp only [theory, run, alone] at sound covers
  have down : Reducible laws.groundGauge s (composed before new after) [] :=
    ⟨advances.fine.rules, reducible.hasEquations, advances.fine.descends⟩
  refine ⟨composed_nodup nodup, fun rule hr => ?_, down.directed, fun a b =>
    ⟨fun d => d.cut sound, fun d => d.cut ?_⟩⟩
  · rcases mem_composed.1 hr with hr | rfl
    · exact ⟨rule, subset_around hr, rfl⟩
    · exact ⟨old, by simp, h.lhs⟩
  · exact fun l r hl => (covers l r hl).derives

/-- What the loop leaves on success. -/
theorem compose_recasts {n : Nat} (laws : ReductionOrder sig gt) (decides : ctx.order.Decides sig gt)
    (wf : s.WellFormed) (nodup : e.rules.Nodup) (directed : ∀ rule ∈ e.rules, s.Directed sig gt rule) :
    TermM.Ensures e s (compose ctx n) (fun _ e' s' => Recast sig gt s e.rules s' e'.rules ∧
      ∀ rule ∈ e'.rules, ∀ d ∈ e'.rules, d ≠ rule → s'.Avoids rule.rhs d.lhs) fun _ _ => True := by
  have obeys : ctx.order.Obeys laws.groundGauge := decides.obeys laws
  induction n generalizing e s with
  | zero => exact .throw wf trivial
  | succ n ih =>
      rw [compose]
      have reducible := reducible_of_directed laws directed
      have all : s.HasAll _ ([] ++ e.rules) := reducible.hasRules
      refine .bindGet ((TermM.Ensures.mono (findComposable_spec obeys wf all reducible.descends)
        (fun _ _ _ _ _ h => h) fun _ _ _ _ _ => trivial).bind ?_)
      rintro out e₁ s₁ wf₁ le₁ ⟨aside, found, done⟩
      have same := Recast.of_le laws wf wf₁ le₁ nodup directed
      split
      · rw [← aside.rules] at same done
        refine .pure wf₁ ⟨?_, done rfl trivial⟩
        rwa [← aside.rules]
      · rename_i before new after
        obtain ⟨old, split, composable⟩ := found before new after rfl
        rw [List.nil_append] at split
        rw [split] at nodup same
        have round := composable.recast laws nodup same.directed
        refine .bindModify ((ih wf₁ round.nodup round.directed).mono ?_ fun _ _ _ _ h => h)
        rintro _ e₂ s₂ - - ⟨recast, rests⟩
        rw [split]
        exact ⟨same.trans (round.trans recast), rests⟩

/-- With more fuel than there are rules to reduce the loop comes to an end by itself, and each round reduces
one of them. -/
theorem compose_guards {n : Nat} (laws : ReductionOrder sig gt) (decides : ctx.order.Decides sig gt)
    (wf : s.WellFormed) (nodup : e.rules.Nodup) (directed : ∀ rule ∈ e.rules, s.Directed sig gt rule)
    (fuel : s.load e.rules < n) :
    Guards e s (compose ctx n) (fun e' _ => ∃ k ≤ s.load e.rules,
      e'.metrics.rulesComposed = e.metrics.rulesComposed + .ofNat k) Diverges := by
  have obeys : ctx.order.Obeys laws.groundGauge := decides.obeys laws
  induction n generalizing e s with
  | zero => exact absurd fuel (Nat.not_lt_zero _)
  | succ n ih =>
      rw [compose]
      have reducible := reducible_of_directed laws directed
      have all : Reducible laws.groundGauge s ([] ++ e.rules) [] := reducible
      have looked := findComposable_guards laws decides wf all (e := e) rfl
      have none_ : ∀ (e₁ : Engine) (s₁ : Store), e₁.metrics.rulesComposed = e.metrics.rulesComposed →
          ∃ k ≤ s.load e.rules, e₁.metrics.rulesComposed = e.metrics.rulesComposed + .ofNat k :=
        fun _ _ count => ⟨0, Nat.zero_le _, count.trans (UInt64.add_zero _).symm⟩
      refine .bindGet (looked.bindThen (findComposable_spec obeys wf all.hasRules all.descends) none_ ?_)
      rintro out e₁ s₁ wf₁ le₁ ⟨aside, found, -⟩ count
      split
      · exact .pure (none_ e₁ s₁ count)
      · rename_i before new after
        obtain ⟨old, split, composable⟩ := found before new after rfl
        rw [List.nil_append] at split
        have fewer : s₁.load e.rules ≤ s.load e.rules := Store.load_anti wf wf₁ le₁
        have same := Recast.of_le laws wf wf₁ le₁ nodup directed
        rw [split] at nodup same fewer fuel ⊢
        have round := composable.recast laws nodup same.directed
        have less := composable.load_lt trivial nodup
        have rest := ih (e := { e₁ with
          metrics := e₁.metrics.recordRuleComposed, rules := composed before new after }) wf₁ round.nodup
          round.directed (by dsimp only; omega)
        refine .bindModify (rest.mono ?_)
        rintro e₂ s₂ ⟨k, few, total⟩
        refine ⟨k + 1, by dsimp only at few; omega, ?_⟩
        rw [total, ← count, UInt64.ofNat_add, UInt64.add_comm (UInt64.ofNat k), ← UInt64.add_assoc]
        rfl

/-- From rules that go down and none of which is there twice the loop leads to rules that go down as well and
on whose right sides no other rule is of use, or to a normalization that takes too long. No rule is reduced or
dropped more than once. -/
theorem compose_reduces {n : Nat} (laws : ReductionOrder sig gt) (decides : ctx.order.Decides sig gt)
    (wf : s.WellFormed) (nodup : e.rules.Nodup) (directed : ∀ rule ∈ e.rules, s.Directed sig gt rule)
    (fuel : e.rules.length < n) :
    let out := Engine.after (compose ctx n) e s
    (∃ k ≤ e.rules.length, out.1.metrics.rulesComposed = e.metrics.rulesComposed + .ofNat k) ∧
    ((∃ halt, answer (compose ctx n) e s = .error halt ∧ Diverges halt) ∨
      answer (compose ctx n) e s = .ok () ∧ Recast sig gt s e.rules out.2 out.1.rules ∧
        ∀ rule ∈ out.1.rules, ∀ d ∈ out.1.rules, d ≠ rule → out.2.Avoids rule.rhs d.lhs) := by
  have few := s.load_le_length e.rules
  obtain ⟨⟨k, le, count⟩, known⟩ :=
    compose_guards laws decides wf nodup directed (Nat.lt_of_le_of_lt few fuel)
  obtain ⟨-, -, outcome⟩ := compose_recasts (n := n) laws decides wf nodup directed
  refine ⟨⟨k, le.trans few, count⟩, ?_⟩
  rw [answer]
  cases result : (compose ctx n e s).1.1 with
  | error halt => exact .inl ⟨halt, rfl, known halt result⟩
  | ok _ =>
      rw [result] at outcome
      exact .inr ⟨rfl, outcome⟩

open Problem (word letterA letterB letters lettersContext)

/-- Three rules: the right side of the first one is reduced by the last one, which makes it the second one. -/
def chained : List Equation × Store :=
  Equation.listOfTerms [(word [letterB], letterB), (word [letterB], letterA), (letterB, letterA)] .empty

theorem listOfTerms_directed {pairs : List (Term × Term)}
    (down : ∀ d ∈ pairs, d.1.Over sig ∧ d.2.Over sig ∧ gt d.1 d.2) :
    (Equation.listOfTerms pairs .empty).2.WellFormed ∧ ∀ rule ∈ (Equation.listOfTerms pairs .empty).1,
      (Equation.listOfTerms pairs .empty).2.Directed sig gt rule := by
  obtain ⟨wf, -, has, same⟩ := Store.listOfTerms_spec Store.empty_wellFormed
    fun d hd => ⟨(down d hd).1, (down d hd).2.1⟩
  refine ⟨wf, fun rule hr => ?_⟩
  obtain ⟨l, r, means, -⟩ := has rule hr
  have mem := Store.mem_theory hr means
  rw [same] at mem
  exact ⟨l, r, means, down (l, r) mem⟩

theorem compose_reduces_chained :
    let e : Engine := { rules := chained.1 }
    let out := Engine.after (compose (lettersContext (.lpo letters [])) 4) e chained.2
    out.1.rules = chained.1.tail ∧
      ∀ rule ∈ out.1.rules, ∀ d ∈ out.1.rules, d ≠ rule → out.2.Avoids rule.rhs d.lhs := by
  intro e out
  have laws := Lpo.reductionOrder (Precedence.lawful letters [])
  have overA := Problem.letterA_over.mono fun _ _ => Signature.interned_of_named
  have overB := Problem.letterB_over.mono fun _ _ => Signature.interned_of_named
  have overF : (word [letterB]).Over (.interned letters) := .app rfl (by simpa using overB)
  have down : Lpo.Gt (Precedence.compare letters (.ranking [])) letterB letterA := .head (by decide) nofun
  have first : Lpo.Gt (Precedence.compare letters (.ranking [])) (word [letterB]) letterB :=
    .arg (List.mem_singleton_self _)
  have second : Lpo.Gt (Precedence.compare letters (.ranking [])) (word [letterB]) letterA :=
    .inside (List.mem_singleton_self _) down
  have stored : chained.2.WellFormed ∧ ∀ rule ∈ chained.1, chained.2.Directed (.interned letters)
      (Lpo.Gt (Precedence.compare letters (.ranking []))) rule :=
    listOfTerms_directed (by simp [overA, overB, overF, down, first, second])
  obtain ⟨wf, directed⟩ := stored
  have outcome : chained.1.Nodup ∧ chained.1.length < 4 ∧ out.1.rules = chained.1.tail ∧
      answer (compose (lettersContext (.lpo letters [])) 4) e chained.2 = .ok () := by
    decide +kernel
  obtain ⟨nodup, fuel, rest, ok⟩ := outcome
  have decides : (lettersContext (.lpo letters [])).order.Decides _ _ := Order.lpo_decides letters []
  obtain ⟨-, ⟨halt, error, -⟩ | ⟨-, -, rights⟩⟩ :=
    compose_reduces (e := e) laws decides wf nodup directed fuel
  · cases ok.symm.trans error
  · exact ⟨rest, rights⟩

end Engine
end OrderedCompletion
