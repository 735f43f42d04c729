import OrderedCompletion.Proofs.Completeness

/-! A ground complete run whose equations have the same variables on both sides decides what follows from
its axioms for ground terms. -/

namespace OrderedCompletion

theorem Term.isGround_iff {t : Term} : t.IsGround ↔ ∀ v, v ∉ t.vars := List.eq_nil_iff_forall_not_mem

theorem Term.IsGround.of_subset {s t : Term} (hs : s.IsGround) (h : ∀ v ∈ t.vars, v ∈ s.vars) :
    t.IsGround :=
  isGround_iff.2 fun v hv => isGround_iff.1 hs v (h v hv)

theorem Term.IsGround.subst_const {u : Term} (hu : u.IsGround) (t : Term) :
    (t.subst fun _ => u).IsGround := by
  rw [isGround_iff]
  intro v hv
  obtain ⟨w, -, hv⟩ := mem_vars_subst.1 hv
  exact isGround_iff.1 hu v hv

namespace Gauge

variable {G : Gauge} {R E : Theory} {x y : Term}

/-- Between ground terms, every use of an equation with the same variables on both sides is a step in one of
the directions. -/
theorem Step.of_inContext (binding : Binding R) (balanced : Balanced E)
    (total : ∀ {a b : Term}, a.Over G.sig → b.Over G.sig → a.IsGround → b.IsGround → a ≠ b →
      G.gt a b ∨ G.gt b a)
    (hx : x.Over G.sig) (hy : y.Over G.sig) (groundX : x.IsGround) (groundY : y.IsGround)
    (h : InContext (Instance (R ∪ E)) x y) : x = y ∨ G.Step R E x y ∨ G.Step R E y x := by
  induction h with
  | root top =>
      obtain ⟨l, r, θ, rule | eq, rfl, rfl⟩ := top
      · exact .inr (.inl (.of_instance binding (.root ⟨l, r, θ, rule, rfl, rfl⟩) hy))
      · by_cases same : l.subst θ = r.subst θ
        · exact .inl same
        · right
          rcases total hx hy groundX groundY same with down | up
          · obtain ⟨η, sameL, sameR, free⟩ := exists_subst_free (balanced.vars_subset (.inl eq)) θ
            exact .inl (.root ⟨hy, l, r, η, sameL, sameR, free, .inr ⟨.inl eq, down⟩⟩)
          · obtain ⟨η, sameR, sameL, free⟩ := exists_subst_free (balanced.vars_subset (.inr eq)) θ
            exact .inr (.root ⟨hx, r, l, η, sameR, sameL, free, .inr ⟨.inr eq, up⟩⟩)
  | @arg s t f pre post _ ih =>
      have hs : s ∈ pre ++ s :: post := by simp
      have ht : t ∈ pre ++ t :: post := by simp
      rcases ih ((Term.over_app_iff.1 hx).2 s hs) ((Term.over_app_iff.1 hy).2 t ht) (groundX.arg hs)
        (groundY.arg ht) with same | forth | back
      · exact .inl (by rw [same])
      · exact .inr (.inl (.arg f pre post forth))
      · exact .inr (.inr (.arg f pre post back))

end Gauge

theorem Store.theory_singleton {s : Store} {e : Equation} :
    s.theory [e] = {(s.term e.lhs, s.term e.rhs)} := by
  ext eq
  simp [theory]

namespace Engine

variable {G : Gauge} {A : Theory} {u : Bool} {e : Engine} {s : Store} {d c : Equation}

/-- A rule, or an equation in one of its directions. -/
def Directed (e : Engine) (d : Equation) : Prop :=
  d ∈ e.rules ∨ ∃ eq ∈ e.equations, d = eq ∨ d = eq.reversed

/-- Every pair of directed rules and equations is looked at before a run is ground complete. -/
theorem Directed.mem_allDonors (hd : e.Directed d) (hc : e.Directed c) :
    (d, c) ∈ e.allDonors e.sources := by
  rw [allDonors, List.mem_flatMap]
  rcases hd with rule | ⟨eq, mem, side⟩
  · rcases hc with rule' | ⟨eq, mem, side⟩
    · refine ⟨(d, false), by simp [sources, rule], ?_⟩
      simp only [donors, Superposer.ruleDonors, Bool.false_eq_true, if_false, List.mem_flatMap]
      exact ⟨c, rule', by simp⟩
    · refine ⟨(eq, true), by simp [sources, mem], ?_⟩
      simp only [donors, Superposer.allDonors, if_true, List.mem_append, List.mem_flatMap]
      exact .inr ⟨d, rule, c, by simpa using side, by simp⟩
  · refine ⟨(eq, true), by simp [sources, mem], ?_⟩
    simp only [donors, Superposer.allDonors, if_true, List.mem_append, List.mem_flatMap]
    rcases hc with rule' | ⟨eq', mem', side'⟩
    · exact .inr ⟨c, rule', d, by simpa using side, by simp⟩
    · refine .inl ⟨eq', ?_, d, by simpa using side, c, by simpa using side', by simp⟩
      rw [Superposition.mem_foldl_addNew]
      exact .inl mem'

/-- What the rules and equations say in some direction, a directed one of them means. -/
theorem exists_directed {sig : Signature} {eq : Term × Term} (rules : s.HasAll sig e.rules)
    (equations : s.HasAll sig e.equations)
    (h : eq ∈ Gauge.Directions (s.theory e.rules) (s.theory e.equations)) : ∃ d, e.Directed d ∧ s.Means d eq := by
  rcases h with rule | forth | back
  · obtain ⟨c, hc, means, -⟩ := rules.exists_means rule
    exact ⟨c, .inl hc, means⟩
  · obtain ⟨c, hc, means, -⟩ := equations.exists_means forth
    exact ⟨c, .inr ⟨c, hc, .inl rfl⟩, means⟩
  · obtain ⟨c, hc, means, -⟩ := equations.exists_means back
    exact ⟨c.reversed, .inr ⟨c, hc, .inr rfl⟩, Equation.means_reversed means⟩

/-- All overlaps of the rules and equations of a ground complete run are connected. -/
theorem Presents.closed_ground (inv : Presents G A u s e) (sharp : G.Sharp)
    (done : e.status = .groundComplete) : G.Closed (s.theory e.rules) (s.theory e.equations) := by
  intro gd hgd ab hab
  obtain ⟨d, hd, meansD⟩ := exists_directed inv.fine.rules inv.fine.equations hgd
  obtain ⟨c, hc, meansC⟩ := exists_directed inv.fine.rules inv.fine.equations hab
  rw [Set.union_comm]
  exact connects_of_connected (inv.ground done sharp (d, c) (hd.mem_allDonors hc)) meansD meansC

end Engine

namespace Problem

open Engine

variable {p : Problem} {sig : Signature} {gt : Term → Term → Prop} {e : Engine} {s : Store} {ctx : Context}
variable {eq : Equation} {l r : Term} {b : Bool}

/-- A ground complete run whose equations have the same variables on both sides answers that two ground
terms are equal if and only if it follows from the axioms. -/
theorem groundComplete_iff (laws : ReductionOrder sig gt) (decides : p.order.Decides sig gt)
    (total : ∀ {a b : Term}, a.Over sig → b.Over sig → a.IsGround → b.IsGround → a ≠ b →
      gt a b ∨ gt b a)
    (posed : p.Posed sig) (distinct : p.start.1.workspace.supply.Distinct)
    (unfailing : p.config.unfailing = true) (h : p.Reaches sig e s) (done : e.status = .groundComplete)
    (balanced : Gauge.Balanced (s.theory e.equations)) (same : ctx.order = p.order)
    (means : s.Means eq (l, r)) (hl : l.Over sig) (hr : r.Over sig) (groundL : l.IsGround)
    (groundR : r.IsGround) (ok : answer (equal ctx eq) e s = .ok b) :
    b = true ↔ Derives p.theory l r := by
  have obeys : p.order.Obeys laws.gauge := decides.obeys laws
  obtain ⟨wf, le, inv⟩ := Reaches.kept (G := laws.gauge) h posed obeys fun _ => distinct
  have spec := equal_spec (same ▸ obeys) wf (Posed.fits (G := laws.gauge) posed) inv means hl hr
  obtain ⟨inv', answers⟩ := Kept.answers spec ok
  obtain ⟨wf', le', -⟩ := spec
  have atEnd : e.isGroundComplete = true := by simp [isGroundComplete, done]
  have ended := answers.ended atEnd
  have done' := (ended.status atEnd).trans done
  have equations : (after (equal ctx eq) e s).2.theory (after (equal ctx eq) e s).1.equations =
      s.theory e.equations := by
    rw [ended.equations]
    exact inv.fine.equations.theory_eq wf wf' le'
  have active : (after (equal ctx eq) e s).2.theory (after (equal ctx eq) e s).1.activeEquations =
      s.theory e.equations := by
    rw [activeEquations, inv'.unfailing, unfailing, if_pos rfl, equations]
  have closed := inv'.closed_ground ⟨trivial, trivial⟩ done'
  rw [equations] at closed
  have desc := inv'.fine.descends
  have binding := laws.binding desc
  refine answers.iff_derives laws inv' (D := fun z => z.Over sig ∧ z.IsGround) rfl active closed balanced
    (fun _ hz => hz.1) ?_ ?_ ⟨hl, groundL⟩ ⟨hr, groundR⟩ ?_
  · intro w z hw below
    exact ⟨below.1, hw.2.of_subset (laws.vars_subset hw.1 below.1 below.2)⟩
  · have directed : ∀ {x y : Term}, x.Over sig ∧ x.IsGround → y.Over sig ∧ y.IsGround →
        InContext (Instance _) x y → x = y ∨ laws.gauge.Step _ _ x y ∨ laws.gauge.Step _ _ y x :=
      fun hx hy => Gauge.Step.of_inContext binding balanced total hx.1 hy.1 hx.2 hy.2
    intro x y hx hy link
    rcases link with forth | back
    · exact directed hx hy forth
    · exact (directed hy hx back).imp Eq.symm Or.symm
  · intro derives
    have followed := derives.cut fun l r hl => (inv'.covers l r hl).derives
    have fits := inv'.fine.fits
    rw [Engine.theory, equations, Set.union_comm] at followed fits
    -- what stands for variables on the way does not matter for ground terms
    have grounded := Conv.subst (θ := fun _ => l) (Q := fun z => z.Over sig ∧ z.IsGround)
      (followed.conv_over fits hl hr) fun z hz => ⟨hz.subst fun _ _ => hl, groundL.subst_const z⟩
    rwa [groundL.subst_eq, groundR.subst_eq] at grounded

/-- With the lexicographic path order, a ground complete run whose equations have the same variables on both
sides decides the equality of ground terms. -/
theorem groundComplete_decides {symbols : SymbolTable} {ranked : List Symbol}
    (order : p.order = .lpo symbols ranked) (posed : p.Posed (.named symbols))
    (supply : p.source = .counting firstFresh) (unfailing : p.config.unfailing = true)
    (h : p.Reaches (.named symbols) e s) (done : e.status = .groundComplete)
    (balanced : Gauge.Balanced (s.theory e.equations)) (same : ctx.order = p.order)
    (means : s.Means eq (l, r)) (hl : l.Over (.named symbols)) (hr : r.Over (.named symbols))
    (groundL : l.IsGround) (groundR : r.IsGround) (ok : answer (equal ctx eq) e s = .ok b) :
    b = true ↔ Derives p.theory l r := by
  have le : ∀ f n, Signature.named symbols f n → Signature.interned symbols f n :=
    fun _ _ => Signature.interned_of_named
  have lawful := (Precedence.lawful symbols ranked).mono le
  have decides : p.order.Decides (.named symbols)
      (Lpo.Gt (Precedence.compare symbols (.ranking ranked))) := by
    rw [order]
    exact Lpo.decides lawful
  have distinct := distinct_start posed (supply ▸ trivial)
  refine groundComplete_iff (Lpo.reductionOrder lawful) decides ?_ posed distinct unfailing h done balanced
    same means hl hr groundL groundR ok
  exact Lpo.total lawful (Precedence.total symbols ranked)

/-- The problem that the first of some equations poses; the others are in the store. -/
def firstOf (order : Order) (pairs : List (Term × Term)) : Problem where
  store := (Equation.listOfTerms pairs .empty).2
  axioms := (Equation.listOfTerms pairs .empty).1.take 1
  order := order

theorem posed_firstOf {order : Order} {pairs : List (Term × Term)}
    (inSig : ∀ d ∈ pairs, d.1.Over sig ∧ d.2.Over sig) : (firstOf order pairs).Posed sig := by
  obtain ⟨wf, -, has, -⟩ := Store.listOfTerms_spec Store.empty_wellFormed inSig
  exact ⟨wf, has.of_subset (List.take_subset _ _)⟩

/-- A table with three names. -/
def letters : SymbolTable := ⟨["a", "b", "f"], by decide⟩

def letterA : Term := .app (.symbol ⟨0⟩) []

def letterB : Term := .app (.symbol ⟨1⟩) []

def word (ts : List Term) : Term := .app (.symbol ⟨2⟩) ts

theorem letterA_over : letterA.Over (.named letters) := .app rfl nofun

theorem letterB_over : letterB.Over (.named letters) := .app rfl nofun

theorem word_over {ts : List Term} (h : ∀ t ∈ ts, t.Over (.named letters)) :
    (word ts).Over (.named letters) :=
  .app rfl h

def lettersContext (order : Order) : Context := { symbols := letters, order := order, fuel := 5 }

/-- Some of these equations have a direction and others have none, and one of them can be used on the next. -/
def assorted : Problem :=
  ofTerms (.lpo letters [])
    [(word [.var 0, .var 1], word [.var 1, .var 0]), (word [word [.var 0]], .var 0), (word [letterA], letterB),
      (word [word [letterA], letterA], word [letterA]), (word [letterB, letterB], word [letterA, letterA])]

theorem assorted_posed : assorted.Posed (.named letters) := by
  have a := letterA_over
  have wordA : (word [letterA]).Over (.named letters) := word_over (by simp [a])
  have loop : (word [.var 0]).Over (.named letters) := word_over (by simp [Term.Over.var])
  refine posed_ofTerms fun d hd => ?_
  simp only [List.mem_cons, List.not_mem_nil, or_false] at hd
  obtain rfl | rfl | rfl | rfl | rfl := hd
  · exact ⟨word_over (by simp [Term.Over.var]), word_over (by simp [Term.Over.var])⟩
  · exact ⟨word_over (by simp [loop]), .var 0⟩
  · exact ⟨wordA, letterB_over⟩
  · exact ⟨word_over (by simp [wordA, a]), wordA⟩
  · exact ⟨word_over (by simp [letterB_over]), word_over (by simp [a])⟩

/-- Where the run on them is after its first steps. -/
def assortedAfter (steps : Nat) : Engine × Store := assorted.stepped (lettersContext assorted.order) steps

/-- A symbol with two arguments is commutative. -/
def commutative : Problem :=
  firstOf (.lpo letters []) [(word [.var 0, .var 1], word [.var 1, .var 0]),
    (word [letterA, letterB], word [letterB, letterA])]

/-- Where the run on it ends. -/
def commutativeEnd : Engine × Store :=
  commutative.runCalls (lettersContext commutative.order) [.complete]

theorem commutative_posed : commutative.Posed (.named letters) := by
  refine posed_firstOf fun d hd => ?_
  rcases List.mem_pair.1 hd with rfl | rfl
  · exact ⟨word_over (by simp [Term.Over.var]), word_over (by simp [Term.Over.var])⟩
  · exact ⟨word_over (by simp [letterA_over, letterB_over]),
      word_over (by simp [letterA_over, letterB_over])⟩

theorem groundComplete_decides_commutative :
    commutativeEnd.1.status = .groundComplete ∧
    Derives commutative.theory (word [letterA, letterB]) (word [letterB, letterA]) ∧
    ¬ Derives commutative.theory letterA letterB := by
  have reached : commutative.Reaches (.named letters) commutativeEnd.1 commutativeEnd.2 :=
    .call .complete (lettersContext commutative.order) .start rfl nofun
  have outcome : commutativeEnd.1.status = .groundComplete ∧ commutativeEnd.1.equations = [⟨2, 3⟩] ∧
      8 ≤ commutativeEnd.2.size ∧ (List.range 8).map commutativeEnd.2.term =
        [.var 0, .var 1, word [.var 0, .var 1], word [.var 1, .var 0], letterA, letterB,
          word [letterA, letterB], word [letterB, letterA]] ∧
      answer (equal (lettersContext commutative.order) ⟨6, 7⟩) commutativeEnd.1 commutativeEnd.2 =
        .ok true ∧
      answer (equal (lettersContext commutative.order) ⟨4, 5⟩) commutativeEnd.1 commutativeEnd.2 =
        .ok false := by
    decide +kernel
  obtain ⟨done, left, size, terms, yes, no⟩ := outcome
  obtain ⟨-, -, forth, back, a, b, ab, ba, -⟩ : _ ∧ _ ∧ _ ∧ _ ∧ _ ∧ _ ∧ _ ∧ _ ∧ True := by
    simpa [List.range_succ] using terms
  have balanced : Gauge.Balanced (commutativeEnd.2.theory commutativeEnd.1.equations) := by
    rw [left, Store.theory_singleton, forth, back]
    rintro _ _ ⟨rfl, rfl⟩ v
    simp [word, or_comm]
  have same : (lettersContext commutative.order).order = commutative.order := rfl
  refine ⟨done, ?_, ?_⟩
  · have means : commutativeEnd.2.Means ⟨6, 7⟩ (word [letterA, letterB], word [letterB, letterA]) :=
      ⟨⟨Nat.lt_of_lt_of_le (by decide) size, ab⟩, Nat.lt_of_lt_of_le (by decide) size, ba⟩
    exact (groundComplete_decides rfl commutative_posed rfl rfl reached done balanced same means
      (word_over (by simp [letterA_over, letterB_over])) (word_over (by simp [letterA_over, letterB_over]))
      rfl rfl yes).1 rfl
  · have means : commutativeEnd.2.Means ⟨4, 5⟩ (letterA, letterB) :=
      ⟨⟨Nat.lt_of_lt_of_le (by decide) size, a⟩, Nat.lt_of_lt_of_le (by decide) size, b⟩
    intro derives
    cases (groundComplete_decides rfl commutative_posed rfl rfl reached done balanced same means letterA_over
      letterB_over rfl rfl no).2 derives

/-- A run ends ground complete and tells two terms apart whose equality follows from the axioms. -/
def Misjudges (p : Problem) (ctx : Context) (eq : Equation) (l r : Term) : Prop :=
  (p.runCalls ctx [.complete]).1.status = .groundComplete ∧
  (p.runCalls ctx [.complete]).2.Means eq (l, r) ∧
  answer (equal ctx eq) (p.runCalls ctx [.complete]).1 (p.runCalls ctx [.complete]).2 = .ok false ∧
  Derives p.theory l r

/-- A symbol does not depend on its argument: the two sides have different variables. -/
def constant (kind : OrderKind) : Problem :=
  firstOf (.ofKind (Precedence.compare letters (.ranking [])) kind)
    [(word [.var 0], word [.var 1]), (word [letterA], word [letterB])]

theorem constant_derives (kind : OrderKind) :
    Derives (constant kind).theory (word [letterA]) (word [letterB]) := by
  have stored : (constant kind).axioms = [⟨1, 3⟩] ∧ (constant kind).store.term 1 = word [.var 0] ∧
      (constant kind).store.term 3 = word [.var 1] := by
    cases kind <;> decide +kernel
  have mem : (word [.var 0], word [.var 1]) ∈ (constant kind).theory := by
    rw [theory, stored.1, Store.theory_singleton, stored.2.1, stored.2.2]
    rfl
  exact .equation (fun v => if v = 0 then letterA else letterB) mem

/-- An equation of this kind is never used, as no term is greater than one with a variable of its own. -/
theorem constant_misjudges (kind : OrderKind) :
    Misjudges (constant kind) (lettersContext (constant kind).order) ⟨5, 7⟩ (word [letterA])
      (word [letterB]) := by
  have outcome : let out := (constant kind).runCalls (lettersContext (constant kind).order) [.complete]
      out.1.status = .groundComplete ∧
      (5 < out.2.size ∧ out.2.term 5 = word [letterA]) ∧ (7 < out.2.size ∧ out.2.term 7 = word [letterB]) ∧
      answer (equal (lettersContext (constant kind).order) ⟨5, 7⟩) out.1 out.2 = .ok false := by
    cases kind <;> decide +kernel
  obtain ⟨done, left, right, no⟩ := outcome
  exact ⟨done, ⟨left, right⟩, no, constant_derives kind⟩

theorem constant_misjudged :
    Misjudges (constant .kbo) (lettersContext (constant .kbo).order) ⟨5, 7⟩ (word [letterA])
      (word [letterB]) ∧
    Misjudges (constant .lpo) (lettersContext (constant .lpo).order) ⟨5, 7⟩ (word [letterA])
      (word [letterB]) :=
  ⟨constant_misjudges .kbo, constant_misjudges .lpo⟩

end Problem
end OrderedCompletion
