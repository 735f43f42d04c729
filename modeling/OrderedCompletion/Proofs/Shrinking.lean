import OrderedCompletion.Proofs.Completeness
import OrderedCompletion.Proofs.Guarding
import OrderedCompletion.Proofs.Stability

/-! What the rules of runs with the Knuth-Bendix order are like. -/

namespace OrderedCompletion

namespace Kbo

variable {cmp : HeadComparison} {sig : Signature} {s : Store} {r q : Ref} {a b : Term}

theorem preserves (lawful : cmp.Lawful sig) : (Order.ofKind cmp .kbo).Preserves :=
  fun wf hr hq => (greater_spec lawful.reflexive wf hr hq).mono fun _ _ _ _ _ => trivial

theorem answers_of_reflexive (refl : cmp.Reflexive sig) (wf : s.WellFormed) (counted : s.Exact)
    (ha : s.Denotes r a) (hb : s.Denotes q b) (inSig : a.Over sig) :
    s.Ensures ((Order.ofKind cmp .kbo).greater r q) fun yes _ =>
      yes = true ↔ a.Covers b ∧ Gt cmp (fun _ _ => True) a b := by
  obtain ⟨hr, rfl⟩ := ha
  obtain ⟨hq, rfl⟩ := hb
  exact (greater_spec refl wf hr hq).mono fun _ _ _ _ h => h.2 counted inSig

theorem answers (lawful : cmp.Lawful sig) (wf : s.WellFormed) (counted : s.Exact) (ha : s.Denotes r a)
    (hb : s.Denotes q b) (inSig : a.Over sig) :
    s.Ensures ((Order.ofKind cmp .kbo).greater r q) fun yes _ =>
      yes = true ↔ a.Covers b ∧ Gt cmp (fun _ _ => True) a b :=
  answers_of_reflexive lawful.reflexive wf counted ha hb inSig

/-- A term that covers a smaller one is greater. -/
theorem gt_of_size_lt (ha : a.Over sig) (hb : b.Over sig) (covered : a.Covers b) (less : b.size < a.size) :
    Gt cmp (fun _ _ => True) a b := by
  cases ha with
  | var v => exact absurd less (Nat.not_lt.2 Term.size_pos)
  | app _ _ =>
      cases hb with
      | var v => exact .var (covered.mem_vars (Term.mem_vars_var.2 rfl))
      | app _ _ => exact .larger trivial less

end Kbo

namespace Problem

open Engine

variable {symbols : SymbolTable} {ranked : List Symbol} {p : Problem} {e : Engine} {s : Store}
variable {eq : Equation}

theorem kbo_grows (order : p.order = .kbo symbols ranked) : p.order.Grows := by
  rw [order]
  exact Kbo.greater_grows _

section
variable (order : p.order = .kbo symbols ranked) (posed : p.Posed (.interned symbols))
variable (h : p.Runs (.interned symbols) e s)
include order posed h

theorem Runs.kbo_wellFormed : s.WellFormed := by
  have preserves : p.order.Preserves := by
    rw [order]
    exact Kbo.preserves (Precedence.lawful symbols ranked)
  exact (Runs.kept (G := .free) h.full posed.full preserves.obeys fun no => no.elim).wellFormed

theorem Runs.kbo_exact (made : Store.Grown .empty p.store)
    (small : ∀ r < s.size, (s.term r).size < 2 ^ 32) : s.Exact :=
  (made.trans (h.grown (kbo_grows order))).exact (h.kbo_wellFormed order posed).below small

/-- No rule grows, whatever it is composed with. -/
theorem Runs.kbo_shrinks (counted : s.Exact) : s.HasAll (.interned symbols) e.rules ∧
    ∀ l r, (l, r) ∈ s.theory e.rules → l.Covers r ∧ r.size ≤ l.size := by
  refine (Runs.rules_gt (G := .shrinking (.interned symbols)) h posed (kbo_grows order) id (fun no => no.elim)
    counted ?_).2
  intro s r q a b wf counted ha hb inSig _
  rw [order]
  refine (Kbo.answers (Precedence.lawful symbols ranked) wf counted ha hb inSig).mono ?_
  intro yes _ _ _ answer isYes
  obtain ⟨covered, down⟩ := answer.1 isYes
  exact ⟨covered, down.size_le⟩

/-- Rules between ground terms decrease, as the order is closed under instances there. -/
theorem Runs.kbo_decreases (counted : s.Exact) (ground : ∀ q < s.size, (s.term q).IsGround) :
    ∀ l r, (l, r) ∈ s.theory e.rules →
      Kbo.Gt (Precedence.compare symbols (.ranking ranked)) Term.Covers l r := by
  have lawful := Precedence.lawful symbols ranked
  have all : s.All fun t n => n.toNat = t.size ∧ t.IsGround :=
    ⟨counted.1, fun q hq => ⟨counted.2 q hq, ground q hq⟩⟩
  refine (Runs.rules_gt (G := Kbo.gauge lawful) h posed (kbo_grows order) id (fun no => no.elim) all ?_).2.2
  intro s r q a b wf all ha hb inSig _
  rw [order]
  refine (Kbo.answers lawful wf (all.mono fun _ _ h => h.1) ha hb inSig).mono ?_
  intro yes _ _ _ answer isYes
  have groundB := (all.2 q hb.1).2
  rw [hb.2] at groundB
  exact (answer.1 isYes).2.of_ground groundB

end

/-- No rule of a run grows: its left side covers its right side and is at least as large. The order says
that the rule decreases if the left side is larger, or if all terms are ground. -/
theorem kbo_rules_shrink (order : p.order = .kbo symbols ranked) (made : Store.Grown .empty p.store)
    (posed : p.Posed (.interned symbols)) (h : p.Runs (.interned symbols) e s)
    (small : ∀ r < s.size, (s.term r).size < 2 ^ 32) (rule : eq ∈ e.rules) :
    ∃ l r, s.Means eq (l, r) ∧ l.Covers r ∧ r.size ≤ l.size ∧
      (r.size < l.size ∨ (∀ q < s.size, (s.term q).IsGround) →
        ((Order.kbo symbols ranked).greater eq.lhs eq.rhs s).1 = true) := by
  have lawful := Precedence.lawful symbols ranked
  have wf := h.kbo_wellFormed order posed
  have counted := h.kbo_exact order posed made small
  obtain ⟨has, shrinks⟩ := h.kbo_shrinks order posed counted
  obtain ⟨l, r, means, hl, hr⟩ := has eq rule
  obtain ⟨covered, le⟩ := shrinks l r (Store.mem_theory rule means)
  refine ⟨l, r, means, covered, le, fun why => ?_⟩
  have answer := (Kbo.answers lawful wf counted means.1 means.2 hl).2.2
  apply answer.2
  refine ⟨covered, ?_⟩
  rcases why with less | ground
  · exact Kbo.gt_of_size_lt hl hr covered less
  · have down := h.kbo_decreases order posed counted ground l r (Store.mem_theory rule means)
    exact down.of_compares lawful hl fun _ _ _ => trivial

/-- Two inversions cancel, and the order is a Knuth-Bendix order. -/
def cancelling : Problem := ofTerms (.kbo inversion []) [(inverse (inverse (.var 0)), .var 0)]

def cancellingContext : Context := { symbols := inversion, order := cancelling.order, fuel := 5 }

/-- Where the run on it ends. -/
def cancellingEnd : Engine × Store := cancelling.runCalls cancellingContext [.complete]

theorem kbo_rules_shrink_cancelling : cancellingEnd.1.rules = [⟨2, 0⟩] ∧
    ((Order.kbo inversion []).greater 2 0 cancellingEnd.2).1 = true := by
  have posed : cancelling.Posed (.interned inversion) := by
    refine posed_ofTerms fun d hd => ?_
    obtain rfl := List.mem_singleton.1 hd
    exact ⟨inverse_over (inverse_over (.var 0)), .var 0⟩
  have reached : cancelling.Runs (.interned inversion) cancellingEnd.1 cancellingEnd.2 :=
    .call .complete cancellingContext .start rfl nofun
  have outcome : cancellingEnd.1.rules = [⟨2, 0⟩] ∧
      (∀ r < cancellingEnd.2.size, (cancellingEnd.2.term r).size < 2 ^ 32) ∧
      (cancellingEnd.2.term 0).size < (cancellingEnd.2.term 2).size := by
    decide +kernel
  obtain ⟨rules, small, less⟩ := outcome
  have mem : ⟨2, 0⟩ ∈ cancellingEnd.1.rules := by simp [rules]
  obtain ⟨l, r, ⟨⟨-, rfl⟩, -, rfl⟩, -, -, decreases⟩ := kbo_rules_shrink rfl grown_ofTerms posed reached
    small mem
  exact ⟨rules, decreases (.inl less)⟩

/-- The highest head of the table of five names. -/
def highest (t : Term) : Term := .app (.symbol ⟨4⟩) [t]

open OrderedCompletion.Order (fiveNames leaf fork low high) in
/-- The second axiom rewrites the right side of the first one to a greater term. -/
def detour : Problem :=
  ofTerms (.kbo fiveNames []) [(fork (highest leaf) (low leaf), fork (high leaf) (low leaf)),
    (fork (high (.var 0)) (.var 1), fork (low (.var 1)) (.var 0))]

def detourContext : Context := { symbols := Order.fiveNames, order := detour.order, fuel := 5 }

/-- Where two steps on it lead. -/
def detourEnd : Engine × Store := detour.runCalls detourContext [.step, .step]

open OrderedCompletion.Order (fiveNames leaf fork low high) in
theorem kbo_rule_increases : ⟨3, 37⟩ ∈ detourEnd.1.rules ∧
    detourEnd.2.Means ⟨3, 37⟩ (fork (highest leaf) (low leaf), fork (low (low leaf)) leaf) ∧
    ((Order.kbo fiveNames []).greater 3 37 detourEnd.2).1 = false ∧
    ((Order.kbo fiveNames []).greater 37 3 detourEnd.2).1 = true := by
  have outcome : ⟨3, 37⟩ ∈ detourEnd.1.rules ∧
      (3 < detourEnd.2.size ∧ detourEnd.2.term 3 = fork (highest leaf) (low leaf)) ∧
      (37 < detourEnd.2.size ∧ detourEnd.2.term 37 = fork (low (low leaf)) leaf) ∧
      ((Order.kbo fiveNames []).greater 3 37 detourEnd.2).1 = false ∧
      ((Order.kbo fiveNames []).greater 37 3 detourEnd.2).1 = true := by
    decide +kernel
  obtain ⟨rule, left, right, no, yes⟩ := outcome
  exact ⟨rule, ⟨left, right⟩, no, yes⟩

end Problem
end OrderedCompletion
