import Mathlib.Data.List.Perm.Subperm
import OrderedCompletion.Proofs.Evolution

/-! What the parts of a step do to the lists of equations and rules. -/

namespace OrderedCompletion

section
variable {α : Type} {R : α → α → Prop} {as bs cs : List α}

theorem sublistForall₂_self (h : ∀ a ∈ as, R a a) : List.SublistForall₂ R as as :=
  List.sublistForall₂_iff.2 ⟨as, List.forall₂_same.2 h, .refl as⟩

theorem sublistForall₂_imp {R' : α → α → Prop} (h : List.SublistForall₂ R as bs)
    (imp : ∀ a b, R a b → R' a b) : List.SublistForall₂ R' as bs := by
  obtain ⟨cs, all, sub⟩ := List.sublistForall₂_iff.1 h
  exact List.sublistForall₂_iff.2 ⟨cs, all.imp imp, sub⟩

theorem sublistForall₂_trans [IsTrans α R] (h : List.SublistForall₂ R as bs)
    (h' : List.SublistForall₂ R bs cs) : List.SublistForall₂ R as cs :=
  IsTrans.trans as bs cs h h'

end

namespace Store

variable {s s' : Store} {r q : Ref}

/-- No instance of the second stored term is inside the first one. -/
def Avoids (s : Store) (r q : Ref) : Prop := ∃ t l, s.Denotes r t ∧ s.Denotes q l ∧ t.Avoids l

theorem Avoids.mono (h : s.Avoids r q) (wf : s.WellFormed) (wf' : s'.WellFormed) (le : s ≤ s') :
    s'.Avoids r q := by
  obtain ⟨t, l, ht, hl, avoids⟩ := h
  exact ⟨t, l, ht.mono wf wf' le, hl.mono wf wf' le, avoids⟩

end Store

namespace Engine

variable {G : Gauge} {s s' : Store} {e e' e'' : Engine} {r q x : Ref} {eq ab : Equation}
variable {looked : List Equation}

/-- The first stored term is at most the second one. -/
def Lowers (G : Gauge) (s : Store) (r q : Ref) : Prop :=
  ∃ a b, s.Denotes q a ∧ s.Denotes r b ∧ a.Over G.sig ∧ G.Under a b

/-- The first stored term is less than the second one. -/
def Drops (G : Gauge) (s : Store) (r q : Ref) : Prop :=
  ∃ a b, s.Denotes q a ∧ s.Denotes r b ∧ a.Over G.sig ∧ G.Below a b

/-- The left side is the same, and the right side is at most what it was. -/
def LowersRight (G : Gauge) (s : Store) (d c : Equation) : Prop := d.lhs = c.lhs ∧ Lowers G s d.rhs c.rhs

/-- Both sides are at most what they were. -/
def LowersSides (G : Gauge) (s : Store) (d c : Equation) : Prop :=
  Lowers G s d.lhs c.lhs ∧ Lowers G s d.rhs c.rhs

theorem Lowers.refl {a : Term} (h : s.Denotes r a) (ha : a.Over G.sig) : Lowers G s r r :=
  ⟨a, a, h, h, ha, .refl ha⟩

theorem Lowers.trans (h : Lowers G s r q) (h' : Lowers G s q x) : Lowers G s r x := by
  obtain ⟨a, b, hq, hr, -, under⟩ := h
  obtain ⟨c, a', hx, hq', hc, under'⟩ := h'
  obtain rfl := hq.unique hq'
  exact ⟨c, b, hx, hr, hc, under'.trans hc under⟩

theorem Lowers.mono (h : Lowers G s r q) (wf : s.WellFormed) (wf' : s'.WellFormed) (le : s ≤ s') :
    Lowers G s' r q := by
  obtain ⟨a, b, hq, hr, rest⟩ := h
  exact ⟨a, b, hq.mono wf wf' le, hr.mono wf wf' le, rest⟩

theorem Drops.mono (h : Drops G s r q) (wf : s.WellFormed) (wf' : s'.WellFormed) (le : s ≤ s') :
    Drops G s' r q := by
  obtain ⟨a, b, hq, hr, rest⟩ := h
  exact ⟨a, b, hq.mono wf wf' le, hr.mono wf wf' le, rest⟩

instance : IsTrans Equation (LowersRight G s) :=
  ⟨fun _ _ _ h h' => ⟨h.1.trans h'.1, h.2.trans h'.2⟩⟩

theorem LowersRight.mono {d c : Equation} (h : LowersRight G s d c) (wf : s.WellFormed)
    (wf' : s'.WellFormed) (le : s ≤ s') : LowersRight G s' d c :=
  ⟨h.1, h.2.mono wf wf' le⟩

theorem LowersSides.mono {d c : Equation} (h : LowersSides G s d c) (wf : s.WellFormed)
    (wf' : s'.WellFormed) (le : s ≤ s') : LowersSides G s' d c :=
  ⟨h.1.mono wf wf' le, h.2.mono wf wf' le⟩

/-- What it comes to that rules with left sides that `ab` reduces are taken back: those looked at that stay
have left sides without instances of that of `ab`, and what is put before the worklist comes from those that
are gone. -/
structure Collapses (G : Gauge) (ab : Equation) (looked : List Equation) (e : Engine) (s' : Store)
    (e' : Engine) : Prop where
  rules : e'.rules.Sublist e.rules
  avoids : G.strict → ∀ rule ∈ looked, rule ∈ e'.rules → s'.Avoids rule.lhs ab.lhs
  equations : ∃ front, e'.equations = front ++ e.equations ∧
    ∀ c ∈ front, ∃ rule ∈ looked, rule ∉ e'.rules ∧ c.rhs = rule.rhs ∧ Drops G s' c.lhs rule.lhs

/-- What it comes to that right sides are reduced by the other rules. -/
structure Composes (G : Gauge) (e : Engine) (s' : Store) (e' : Engine) : Prop where
  equations : e'.equations = e.equations
  rules : List.SublistForall₂ (LowersRight G s') e'.rules e.rules
  avoids : G.strict → ∀ rule ∈ e'.rules, ∀ d ∈ e'.rules, d ≠ rule → s'.Avoids rule.rhs d.lhs

/-- What it comes to that equations are reduced by the rules. -/
structure Simplifies (G : Gauge) (e : Engine) (s' : Store) (e' : Engine) : Prop where
  rules : e'.rules = e.rules
  equations : List.SublistForall₂ (LowersSides G s') e'.equations e.equations
  avoids : G.strict → ∀ c ∈ e'.equations, ∀ d ∈ e'.rules, s'.Avoids c.lhs d.lhs ∧ s'.Avoids c.rhs d.lhs
  proper : ∀ c ∈ e'.equations, c.isTrivial = false

/-- What it comes to that rules and equations are reduced by each other. -/
structure Interreduces (G : Gauge) (e : Engine) (s' : Store) (e' : Engine) : Prop where
  rules : List.SublistForall₂ (LowersRight G s') e'.rules e.rules
  equations : ∃ es, List.SublistForall₂ (LowersSides G s') es e.equations ∧ e'.equations.Subperm es
  rights : G.strict → ∀ rule ∈ e'.rules, ∀ d ∈ e'.rules, d ≠ rule → s'.Avoids rule.rhs d.lhs
  sides : G.strict → ∀ c ∈ e'.equations, ∀ d ∈ e'.rules, s'.Avoids c.lhs d.lhs ∧ s'.Avoids c.rhs d.lhs
  proper : ∀ c ∈ e'.equations, c.isTrivial = false
  apart : ∀ c ∈ e'.equations, ∀ d ∈ e'.equations, c ≠ d → ¬ Equation.Subsumes s' c d

/-- What it comes to that an equation has become the rule `ab`: its pairs are added, and what `ab` collapses
goes back to the worklist. -/
structure Adds (G : Gauge) (eq ab : Equation) (e : Engine) (s' : Store) (e' : Engine) : Prop where
  rules : e'.rules.Sublist (addNew e.rules ab)
  avoids : G.strict → ∀ rule ∈ e'.rules, rule ≠ ab → s'.Avoids rule.lhs ab.lhs
  equations : ∃ front kept : List Equation,
    e'.equations = front ++ remove (kept.foldl addNew e.equations) eq ∧
    (∀ c ∈ front, ∃ rule ∈ e.rules, rule ∉ e'.rules ∧ c.rhs = rule.rhs ∧ Drops G s' c.lhs rule.lhs) ∧
    ∀ c ∈ kept, ∃ d ∈ Superposer.ruleDonors (addNew e.rules ab) ab, Superposer.Overlaps G s' d c

theorem Adds.mono (h : Adds G eq ab e s e') (wf : s.WellFormed) (wf' : s'.WellFormed) (le : s ≤ s') :
    Adds G eq ab e s' e' where
  rules := h.rules
  avoids := fun strict rule hr apart => (h.avoids strict rule hr apart).mono wf wf' le
  equations := by
    obtain ⟨front, kept, same, origin, pairs⟩ := h.equations
    refine ⟨front, kept, same, fun c hc => ?_, fun c hc => ?_⟩
    · obtain ⟨rule, hr, gone, rhs, drops⟩ := origin c hc
      exact ⟨rule, hr, gone, rhs, drops.mono wf wf' le⟩
    · obtain ⟨d, hd, overlaps⟩ := pairs c hc
      exact ⟨d, hd, overlaps.mono wf wf' le⟩

end Engine
end OrderedCompletion
