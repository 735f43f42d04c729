import Mathlib.Data.Multiset.DershowitzManna
import Mathlib.SetTheory.Ordinal.Rank
import Mathlib.Tactic.Abel
import OrderedCompletion.Proofs.Progress

/-! Every step on ground equations makes a multiset of ordinals smaller. -/

namespace OrderedCompletion

/-- Different elements of the second multiset are at least those of the first one. -/
def Dominated (M N : Multiset Ordinal.{0}) : Prop := ∃ N' ≤ N, Multiset.Rel (· ≤ ·) M N'

section
variable {M M' N N' : Multiset Ordinal.{0}}

theorem Dominated.add (h : Dominated M N) (h' : Dominated M' N') : Dominated (M + M') (N + N') := by
  obtain ⟨L, le, all⟩ := h
  obtain ⟨L', le', all'⟩ := h'
  exact ⟨L + L', add_le_add le le', all.add all'⟩

theorem Dominated.of_le (h : Dominated M N) (le : M' ≤ M) : Dominated M' N := by
  obtain ⟨L, below, all⟩ := h
  obtain ⟨rest, rfl⟩ := Multiset.le_iff_exists_add.1 le
  obtain ⟨L₀, L₁, all₀, -, rfl⟩ := Multiset.rel_add_left.1 all
  exact ⟨L₀, (Multiset.le_add_right L₀ L₁).trans below, all₀⟩

theorem eq_or_lt_of_rel (h : Multiset.Rel (· ≤ ·) M N) : M = N ∨ M.IsDershowitzMannaLT N := by
  induction h with
  | zero => exact .inl rfl
  | @cons a b M N le _ ih =>
      rcases le.eq_or_lt with rfl | lt
      · rcases ih with rfl | ⟨X, Y, Z, some, rfl, rfl, below⟩
        · exact .inl rfl
        · exact .inr ⟨a ::ₘ X, Y, Z, some, by simp, by simp, below⟩
      · right
        rcases ih with rfl | ⟨X, Y, Z, -, rfl, rfl, below⟩
        · exact ⟨M, {a}, {b}, by simp, by simp [add_comm M], by simp [add_comm M], by simpa using lt⟩
        · refine ⟨X, a ::ₘ Y, b ::ₘ Z, by simp, by simp, by simp, fun y hy => ?_⟩
          rcases Multiset.mem_cons.1 hy with rfl | hy
          · exact ⟨b, Multiset.mem_cons_self b Z, lt⟩
          · obtain ⟨z, hz, less⟩ := below y hy
            exact ⟨z, Multiset.mem_cons_of_mem hz, less⟩

theorem Dominated.eq_or_lt (h : Dominated M N) : M = N ∨ M.IsDershowitzMannaLT N := by
  obtain ⟨L, le, all⟩ := h
  obtain ⟨rest, rfl⟩ := Multiset.le_iff_exists_add.1 le
  by_cases none : rest = 0
  · rw [none, add_zero]
    exact eq_or_lt_of_rel all
  · have fewer : L.IsDershowitzMannaLT (L + rest) := ⟨L, 0, rest, none, by simp, rfl, by simp⟩
    rcases eq_or_lt_of_rel all with rfl | lt
    · exact .inr fewer
    · exact .inr (lt.trans fewer)

end

namespace ReductionOrder

variable {sig : Signature} {gt : Term → Term → Prop} {laws : ReductionOrder sig gt} {s s' : Store}
variable {a b : Term} {r q : Ref} {d c : Equation} {ds cs : List Equation}

/-- How many terms there are below a term, one below the other. -/
noncomputable def rank (laws : ReductionOrder sig gt) (t : Term) : Ordinal.{0} := (laws.wf.apply t).rank

theorem rank_lt (ha : a.Over sig) (h : laws.groundGauge.Below a b) : laws.rank b < laws.rank a :=
  (laws.wf.apply a).rank_lt_of_rel ⟨h.1, ha, h.2⟩

theorem rank_le (ha : a.Over sig) (h : laws.groundGauge.Under a b) : laws.rank b ≤ laws.rank a := by
  obtain ⟨hb, rfl | less⟩ := h
  · exact le_rfl
  · exact (rank_lt ha ⟨hb, less⟩).le

theorem rank_le_of_lowers (h : Engine.Lowers laws.groundGauge s r q) :
    laws.rank (s.term r) ≤ laws.rank (s.term q) := by
  obtain ⟨a, b, ⟨-, rfl⟩, ⟨-, rfl⟩, ha, under⟩ := h
  exact rank_le ha under

/-- The ranks of the sides of an equation. -/
noncomputable def sides (laws : ReductionOrder sig gt) (s : Store) (d : Equation) : Multiset Ordinal.{0} :=
  {laws.rank (s.term d.lhs), laws.rank (s.term d.rhs)}

theorem mem_sides {x : Ordinal.{0}} :
    x ∈ laws.sides s d ↔ x = laws.rank (s.term d.lhs) ∨ x = laws.rank (s.term d.rhs) := by
  simp [sides]

theorem sides_reversed : laws.sides s d.reversed = laws.sides s d := Multiset.pair_comm _ _

theorem sides_rel (left : laws.rank (s.term d.lhs) ≤ laws.rank (s.term c.lhs))
    (right : laws.rank (s.term d.rhs) ≤ laws.rank (s.term c.rhs)) :
    Multiset.Rel (· ≤ ·) (laws.sides s d) (laws.sides s c) :=
  .cons left (.cons right .zero)

/-- The ranks of the sides of a list of equations. -/
noncomputable def allSides (laws : ReductionOrder sig gt) (s : Store) (ds : List Equation) :
    Multiset Ordinal.{0} :=
  (ds : Multiset Equation).bind (laws.sides s)

@[simp]
theorem allSides_nil : laws.allSides s [] = 0 := rfl

@[simp]
theorem allSides_cons : laws.allSides s (d :: ds) = laws.sides s d + laws.allSides s ds := by
  rw [allSides, ← Multiset.cons_coe, Multiset.cons_bind]
  rfl

@[simp]
theorem allSides_append : laws.allSides s (ds ++ cs) = laws.allSides s ds + laws.allSides s cs := by
  rw [allSides, ← Multiset.coe_add, Multiset.add_bind]
  rfl

theorem allSides_perm (h : ds.Perm cs) : laws.allSides s ds = laws.allSides s cs := by
  rw [allSides, Multiset.coe_eq_coe.2 h]
  rfl

theorem mem_allSides {x : Ordinal.{0}} : x ∈ laws.allSides s ds ↔ ∃ d ∈ ds, x ∈ laws.sides s d := by
  simp [allSides]

theorem allSides_le_of_subperm (h : ds.Subperm cs) : laws.allSides s ds ≤ laws.allSides s cs := by
  obtain ⟨rest, same⟩ := Multiset.le_iff_exists_add.1 (Multiset.coe_le.2 h)
  rw [allSides, allSides, same, Multiset.add_bind]
  exact Multiset.le_add_right _ _

theorem allSides_dominated {R : Equation → Equation → Prop} (h : List.SublistForall₂ R ds cs)
    (lower : ∀ d c, R d c → Multiset.Rel (· ≤ ·) (laws.sides s d) (laws.sides s c)) :
    Dominated (laws.allSides s ds) (laws.allSides s cs) := by
  induction h with
  | nil => exact ⟨0, Multiset.zero_le _, .zero⟩
  | cons hd _ ih =>
      rw [allSides_cons, allSides_cons]
      exact .add ⟨_, le_rfl, lower _ _ hd⟩ ih
  | cons_right _ ih =>
      rw [allSides_cons]
      obtain ⟨N, le, all⟩ := ih
      exact ⟨N, le.trans (Multiset.le_add_left _ _), all⟩

/-- The ranks of all sides, those of equations twice: an equation outweighs the rule that it becomes. -/
noncomputable def burden (laws : ReductionOrder sig gt) (s : Store) (e : Engine) : Multiset Ordinal.{0} :=
  laws.allSides s e.rules + (laws.allSides s e.equations + laws.allSides s e.equations)

/-- What follows from itself at lesser burdens holds throughout. -/
@[elab_as_elim]
theorem burden_induction (laws : ReductionOrder sig gt) {motive : Store → Engine → Prop}
    (s : Store) (e : Engine)
    (lighter : ∀ s e,
      (∀ s' e', (laws.burden s' e').IsDershowitzMannaLT (laws.burden s e) → motive s' e') →
        motive s e) : motive s e := by
  have wf := InvImage.wf (fun run : Store × Engine => laws.burden run.1 run.2)
    Multiset.wellFounded_isDershowitzMannaLT
  exact wf.induction (C := fun run => motive run.1 run.2) (s, e) fun run ih =>
    lighter run.1 run.2 fun s' e' less => ih (s', e') less

theorem sides_of_has (has : s.Has sig d) (wf : s.WellFormed) (wf' : s'.WellFormed) (le : s ≤ s') :
    laws.sides s' d = laws.sides s d := by
  obtain ⟨l, r, means, -⟩ := has
  have later := Equation.means_mono means wf wf' le
  rw [sides, sides, later.1.2, later.2.2, means.1.2, means.2.2]

theorem allSides_of_has (has : s.HasAll sig ds) (wf : s.WellFormed) (wf' : s'.WellFormed) (le : s ≤ s') :
    laws.allSides s' ds = laws.allSides s ds :=
  Multiset.bind_congr fun d hd => sides_of_has (has d (Multiset.mem_coe.1 hd)) wf wf' le

theorem burden_of_le {e : Engine} (fine : Engine.Fine laws.groundGauge s e) (wf : s.WellFormed)
    (wf' : s'.WellFormed) (le : s ≤ s') : laws.burden s' e = laws.burden s e := by
  have rules : laws.allSides s' e.rules = laws.allSides s e.rules := allSides_of_has fine.rules wf wf' le
  have equations : laws.allSides s' e.equations = laws.allSides s e.equations :=
    allSides_of_has fine.equations wf wf' le
  rw [burden, burden, rules, equations]

end ReductionOrder

namespace Engine

open ReductionOrder

variable {sig : Signature} {gt : Term → Term → Prop} {laws : ReductionOrder sig gt}
variable {e e' : Engine} {s : Store} {eq ab c : Equation}

theorem Beside.burden_eq (h : Beside e e') : laws.burden s e' = laws.burden s e := by
  rw [burden, burden, h.equations, h.rules]

/-- Reducing rules and equations by each other adds no burden. -/
theorem Interreduces.dominated (h : Interreduces laws.groundGauge e s e') :
    Dominated (laws.burden s e') (laws.burden s e) := by
  have rules : Dominated (laws.allSides s e'.rules) (laws.allSides s e.rules) := by
    refine allSides_dominated h.rules fun d c lower => sides_rel ?_ (rank_le_of_lowers lower.2)
    rw [lower.1]
  have equations : Dominated (laws.allSides s e'.equations) (laws.allSides s e.equations) := by
    obtain ⟨es, lower, fewer⟩ := h.equations
    refine Dominated.of_le (allSides_dominated lower fun d c lower => ?_) (allSides_le_of_subperm fewer)
    exact sides_rel (rank_le_of_lowers lower.1) (rank_le_of_lowers lower.2)
  exact rules.add (equations.add equations)

theorem foldl_addNew_eq_append (es kept : List Equation) :
    ∃ new, kept.foldl addNew es = es ++ new ∧ new ⊆ kept := by
  induction kept generalizing es with
  | nil => exact ⟨[], by simp, List.nil_subset _⟩
  | cons c kept ih =>
      rw [List.foldl_cons, addNew]
      split
      · obtain ⟨new, same, sub⟩ := ih es
        exact ⟨new, same, List.subset_cons_of_subset c sub⟩
      · obtain ⟨new, same, sub⟩ := ih (es ++ [c])
        exact ⟨c :: new, by simpa using same, List.cons_subset_cons c sub⟩

theorem perm_remove (h : eq ∈ e.equations) :
    ∃ others, e.equations.Perm (remove e.equations eq ++ eq :: others) := by
  have split := List.filter_append_perm (· ≠ eq) e.equations
  have there : eq ∈ e.equations.filter fun d => !decide (d ≠ eq) := List.mem_filter.2 ⟨h, by simp⟩
  exact ⟨_, split.symm.trans ((List.perm_cons_erase there).append_left _)⟩

/-- Both sides of an equation are less than the left side of another one. -/
def Topped (G : Gauge) (s : Store) (c d : Equation) : Prop :=
  ∃ w x y, s.Denotes d.lhs w ∧ w.Over G.sig ∧ s.Means c (x, y) ∧ G.Below w x ∧ G.Below w y

theorem Topped.sides_lt (h : Topped laws.groundGauge s c ab) :
    ∀ x ∈ laws.sides s c, x < laws.rank (s.term ab.lhs) := by
  obtain ⟨w, x, y, hw, inSig, means, left, right⟩ := h
  intro z hz
  rw [mem_sides, means.1.2, means.2.2] at hz
  rw [hw.2]
  rcases hz with rfl | rfl
  · exact rank_lt inSig left
  · exact rank_lt inSig right

/-- What arises from ground rules is topped by the outer one, in which there is an instance of the inner
one. -/
theorem topped_of_overlaps {donors : Equation × Equation} {l r l' r' : Term}
    (h : Superposer.Overlaps laws.groundGauge s donors c) (outer : s.Means donors.1 (l, r))
    (inner : s.Means donors.2 (l', r')) (hl : l.Over sig) (hr : laws.groundGauge.Below l r)
    (hr' : laws.groundGauge.Below l' r') (ground : l.IsGround ∧ r.IsGround)
    (ground' : l'.IsGround ∧ r'.IsGround) :
    ¬ l.Avoids l' ∧ Topped laws.groundGauge s c donors.1 := by
  obtain ⟨gd, ab, hgd, hab, x, y, means, -, -, p, ρ, τ, at_, pair⟩ := h
  obtain rfl : gd = (l, r) := Equation.means_unique hgd outer
  obtain rfl : ab = (l', r') := Equation.means_unique hab inner
  simp only [ground.1.subst_eq, ground.2.subst_eq, ground'.1.subst_eq, ground'.2.subst_eq] at at_ pair
  obtain ⟨rfl, rfl⟩ := Prod.mk.inj pair
  refine ⟨fun avoids => avoids p l' at_ .var (by rw [Term.subst_self]), ?_⟩
  have replaced : laws.groundGauge.Below l (Term.replaceAt r' l p) :=
    ⟨hl.replaceAt hr'.1, laws.groundGauge.gt_replaceAt hl hr'.1 at_ hr'.2⟩
  exact ⟨l, _, _, outer.1, hl, means, hr, replaced⟩

/-- All sides of equations and rules are ground. -/
def Ground (s : Store) (e : Engine) : Prop :=
  ∀ d ∈ e.equations ++ e.rules, (s.term d.lhs).IsGround ∧ (s.term d.rhs).IsGround

/-- The rules that stay, and those that are gone. -/
theorem Adds.perm_rules {G : Gauge} (h : Adds G eq ab e s e') :
    ∃ old new gone, e'.rules = old ++ new ∧ e.rules.Perm (old ++ gone) ∧ (new = [] ∨ new = [ab]) := by
  have sub := h.rules
  rw [addNew] at sub
  split at sub
  · obtain ⟨gone, split⟩ := sub.exists_perm_append
    exact ⟨e'.rules, [], gone, by simp, split, .inl rfl⟩
  · obtain ⟨old, new, same, subOld, subNew⟩ := List.sublist_append_iff.1 sub
    obtain ⟨gone, split⟩ := subOld.exists_perm_append
    exact ⟨old, new, gone, same, split, List.sublist_singleton.1 subNew⟩

/-- A rule between ground terms that goes down. -/
def GroundRule (laws : ReductionOrder sig gt) (s : Store) (d : Equation) : Prop :=
  ∃ l r, s.Means d (l, r) ∧ l.Over sig ∧ laws.groundGauge.Below l r ∧ l.IsGround ∧ r.IsGround

theorem Ground.rules (ground : Ground s e) (fine : Fine laws.groundGauge s e) (mem : eq ∈ e.equations)
    (directs : Directs laws.groundGauge s eq ab) : ∀ d ∈ addNew e.rules ab, GroundRule laws s d := by
  intro d hd
  rcases Superposition.mem_addNew.1 hd with hd | rfl
  · obtain ⟨l, r, means, -⟩ := fine.rules d hd
    obtain ⟨hl, hr, down⟩ := fine.descends l r (Store.mem_theory hd means)
    have sides := ground d (List.mem_append_right _ hd)
    rw [means.1.2, means.2.2] at sides
    exact ⟨l, r, means, hl, ⟨hr, down⟩, sides⟩
  · obtain ⟨same, a, b, means, ha, hb, down⟩ := directs
    have sides := ground eq (List.mem_append_left _ mem)
    refine ⟨a, b, means, ha, ⟨hb, down⟩, ?_⟩
    rcases same with rfl | rfl
    · rwa [means.1.2, means.2.2] at sides
    · have left : s.term eq.rhs = a := means.1.2
      have right : s.term eq.lhs = b := means.2.2
      rw [left, right] at sides
      exact sides.symm

/-- What comes with a new rule is topped by the rule, or by one that is gone. -/
theorem Adds.exists_topped {front kept : List Equation} (h : Adds laws.groundGauge eq ab e s e')
    (rules : ∀ d ∈ addNew e.rules ab, GroundRule laws s d)
    (origin : ∀ c ∈ front, ∃ rule ∈ e.rules, rule ∉ e'.rules ∧ c.rhs = rule.rhs ∧
      Drops laws.groundGauge s c.lhs rule.lhs)
    (pairs : ∀ c ∈ kept, ∃ d ∈ Superposer.ruleDonors (addNew e.rules ab) ab,
      Superposer.Overlaps laws.groundGauge s d c) (mem : c ∈ front ++ kept) :
    ∃ d, (d = ab ∨ d ∈ e.rules ∧ d ∉ e'.rules) ∧ Topped laws.groundGauge s c d := by
  rcases List.mem_append.1 mem with mem | mem
  · obtain ⟨rule, there, gone, same, x, y, hx, hy, -, drops⟩ := origin c mem
    obtain ⟨l, r, means, hl, below, -⟩ := rules rule (Superposition.mem_addNew.2 (.inl there))
    obtain rfl := hx.unique means.1
    exact ⟨rule, .inr ⟨there, gone⟩, x, y, r, hx, hl, ⟨hy, same ▸ means.2⟩, drops, below⟩
  · obtain ⟨donors, there, overlaps⟩ := pairs c mem
    obtain ⟨gd, hgd, here⟩ := List.mem_flatMap.1 there
    obtain ⟨l, r, means, hl, below, ground⟩ := rules gd hgd
    obtain ⟨l', r', means', hl', below', ground'⟩ := rules ab (Superposition.mem_addNew.2 (.inr rfl))
    simp only [List.mem_cons, List.not_mem_nil, or_false] at here
    rcases here with rfl | rfl
    · exact ⟨ab, .inl rfl, (topped_of_overlaps overlaps means' means hl' below' below ground' ground).2⟩
    · obtain ⟨inside, topped⟩ := topped_of_overlaps overlaps means means' hl below below' ground ground'
      refine ⟨gd, ?_, topped⟩
      by_cases same : gd = ab
      · exact .inl same
      · refine .inr ⟨(Superposition.mem_addNew.1 hgd).resolve_right same, fun stays => inside ?_⟩
        obtain ⟨x, y, hx, hy, avoids⟩ := h.avoids trivial gd stays same
        obtain rfl := hx.unique means.1
        obtain rfl := hy.unique means'.1
        exact avoids

/-- An equation that becomes a rule outweighs the rule, and what comes with it is outweighed by what is
gone. -/
theorem Adds.burden_lt (h : Adds laws.groundGauge eq ab e s e') (mem : eq ∈ e.equations)
    (directs : Directs laws.groundGauge s eq ab) (fine : Fine laws.groundGauge s e) (ground : Ground s e) :
    (laws.burden s e').IsDershowitzMannaLT (laws.burden s e) := by
  obtain ⟨front, kept, equations, origin, pairs⟩ := h.equations
  obtain ⟨found, foldl, sub⟩ := foldl_addNew_eq_append e.equations kept
  obtain ⟨others, splitEq⟩ := perm_remove mem
  obtain ⟨old, new, gone, rules, split, added⟩ := h.perm_rules
  have removed : remove (e.equations ++ found) eq = remove e.equations eq ++ remove found eq :=
    List.filter_append e.equations found
  have same : laws.sides s ab = laws.sides s eq := by
    rcases directs.same with rfl | rfl
    · rfl
    · exact sides_reversed
  have top : laws.rank (s.term ab.lhs) ∈ laws.sides s eq := same ▸ mem_sides.2 (.inl rfl)
  -- what of the equation is left over beside the rule
  obtain ⟨left, twice, stays⟩ : ∃ left, laws.sides s eq + laws.sides s eq = laws.allSides s new + left ∧
      laws.rank (s.term ab.lhs) ∈ left := by
    rcases added with rfl | rfl
    · exact ⟨laws.sides s eq + laws.sides s eq, by simp, Multiset.mem_add.2 (.inl top)⟩
    · exact ⟨laws.sides s eq, by simp [same], top⟩
  have down := ground.rules fine mem directs
  have outweighed : ∀ x ∈ laws.allSides s (front ++ remove found eq),
      ∃ z ∈ laws.allSides s gone + left, x < z := by
    intro x hx
    obtain ⟨c, hc, hx⟩ := mem_allSides.1 hx
    have new : c ∈ front ++ kept := by
      rcases List.mem_append.1 hc with hc | hc
      · exact List.mem_append_left _ hc
      · exact List.mem_append_right _ (sub (mem_remove.1 hc).1)
    obtain ⟨d, isGone, topped⟩ := h.exists_topped down origin pairs new
    refine ⟨_, ?_, topped.sides_lt x hx⟩
    rcases isGone with rfl | ⟨there, absent⟩
    · exact Multiset.mem_add.2 (.inr stays)
    · have mem : d ∈ gone := by
        refine (List.mem_append.1 (split.mem_iff.1 there)).resolve_left fun kept => absent ?_
        rw [rules]
        exact List.mem_append_left _ kept
      exact Multiset.mem_add.2 (.inl (mem_allSides.2 ⟨d, mem, mem_sides.2 (.inl rfl)⟩))
  refine ⟨laws.allSides s old + laws.allSides s new +
      (laws.allSides s (remove e.equations eq) + laws.allSides s (remove e.equations eq)),
    laws.allSides s (front ++ remove found eq) + laws.allSides s (front ++ remove found eq),
    (laws.allSides s gone + left) + (laws.allSides s others + laws.allSides s others), ?_, ?_, ?_, ?_⟩
  · intro none
    have there : laws.rank (s.term ab.lhs) ∈ (∅ : Multiset Ordinal.{0}) := by
      rw [← none]
      exact Multiset.mem_add.2 (.inl (Multiset.mem_add.2 (.inr stays)))
    cases Multiset.notMem_zero _ there
  · rw [burden, equations, foldl, removed, rules]
    simp only [allSides_append]
    abel
  · have parts : laws.burden s e = laws.allSides s old + laws.allSides s gone +
        (laws.allSides s (remove e.equations eq) + laws.allSides s (remove e.equations eq)) +
        (laws.allSides s others + laws.allSides s others) + (laws.sides s eq + laws.sides s eq) := by
      rw [burden, allSides_perm split, allSides_perm splitEq]
      simp only [allSides_append, allSides_cons]
      abel
    rw [parts, twice]
    abel
  · intro x hx
    obtain ⟨z, hz, less⟩ := outweighed x ((Multiset.mem_add.1 hx).elim id id)
    exact ⟨z, Multiset.mem_add.2 (.inl hz), less⟩

/-- The order compares the sides of every equation. -/
def Comparable (G : Gauge) (s : Store) (e : Engine) : Prop :=
  ∀ d ∈ e.equations, ∀ l r, s.Means d (l, r) → G.gt l r ∨ G.gt r l

/-- A step on ground equations whose sides are comparable makes the burden smaller. -/
theorem Stepped.burden_lt (h : Stepped laws.groundGauge e s e') (fine : Fine laws.groundGauge s e)
    (ground : Ground s e) (comparable : Comparable laws.groundGauge s e) :
    (laws.burden s e').IsDershowitzMannaLT (laws.burden s e) := by
  cases h with
  | oriented mem directs adds reduces =>
      have added := adds.burden_lt mem directs fine ground
      rcases reduces.dominated.eq_or_lt with same | lt
      · rwa [same]
      · exact lt.trans added
  | @dropped eq mem _ fewer same =>
      obtain ⟨others, split⟩ := perm_remove mem
      refine ⟨laws.burden s e', 0, laws.allSides s (eq :: others) + laws.allSides s (eq :: others), ?_,
        by simp, ?_, by simp⟩
      · simp [sides]
      · rw [burden, burden, same, fewer, allSides_perm split]
        simp only [allSides_append]
        abel
  | @deferred eq e₁ mem _ apart _ _ =>
      obtain ⟨l, r, means, -⟩ := fine.equations eq mem
      have ⟨no, no'⟩ := apart trivial l r means
      exact ((comparable eq mem l r means).elim no no').elim

end Engine
end OrderedCompletion
