import OrderedCompletion.Proofs.GroundOrder
import OrderedCompletion.Proofs.GroundTermination
import OrderedCompletion.Proofs.Rest

/-! Completion of ground axioms ends, and what it ends with decides what follows from the axioms. -/

namespace OrderedCompletion

namespace Engine

variable {G : Gauge} {I J : Term → Prop} {e : Engine} {s : Store}

/-- Ground rules no left side of which is inside another one have only trivial overlaps. -/
theorem closed_of_apart (among : s.AmongAll Term.IsGround e.rules) (lefts : e.rules.Pairwise (Apart s)) :
    G.Closed (s.theory e.rules) ∅ := by
  have only : ∀ d ∈ Gauge.Directions (s.theory e.rules) ∅,
      ∃ rule ∈ e.rules, s.Means rule d ∧ d.1.IsGround ∧ d.2.IsGround := by
    rintro d (⟨rule, mem, rfl⟩ | none | none)
    · obtain ⟨l, r, means, hl, hr⟩ := among rule mem
      rw [means.1.2, means.2.2]
      exact ⟨rule, mem, means, hl, hr⟩
    · exact none.elim
    · exact none.elim
  intro gd hgd ab hab p u ρ τ _ _ at_ _ eq _ _
  obtain ⟨c, hc, meansC, groundG, groundD⟩ := only gd hgd
  obtain ⟨d, hd, meansD, groundA, groundB⟩ := only ab hab
  have inside : gd.1.subtermAt p = some ab.1 := by
    rw [(groundG.subtermAt at_).subst_eq, groundA.subst_eq] at eq
    exact eq ▸ at_
  by_cases same : c = d
  · subst same
    obtain rfl : gd = ab := Equation.means_unique meansC meansD
    obtain rfl : p = [] := by
      by_contra below
      exact absurd (Term.size_lt_of_subtermAt below inside) (lt_irrefl _)
    rw [groundD.subst_eq, groundD.subst_eq]
    exact .refl gd.2
  · have : Std.Symm (Apart s) := ⟨fun _ _ h => ⟨h.2, h.1⟩⟩
    obtain ⟨⟨g, a, hg, ha, avoids⟩, -⟩ := lefts.forall hc hd same
    obtain rfl := hg.unique meansC.1
    obtain rfl := ha.unique meansD.1
    exact absurd (groundA.subst_eq τ) (avoids p _ inside τ)

/-- From here on, whatever calls are made, equality is decided: an answer is right about what follows from
`A`. -/
def Decides (A : Theory) (sig : Signature) (e : Engine) (s : Store) : Prop :=
  ∀ e' s', GoesOn sig e s e' s' → ∀ (ctx : Context) (eq : Equation) (l r : Term) (b : Bool),
    s'.Means eq (l, r) → l.Over sig → r.Over sig → answer (equal ctx eq) e' s' = .ok b →
    (b = true ↔ Derives A l r)

end Engine

namespace Problem

open Engine

variable {p : Problem} {sig : Signature} {gt : Term → Term → Prop} {laws : ReductionOrder sig gt}
variable {I J : Term → Prop} {Q : Term → UInt32 → Prop} {o : Order} {e : Engine} {s : Store} {ctx : Context}

/-- The start of a run only notes the variables of terms. -/
theorem start_same (posed : p.Posed sig) : p.store.Ensures (ofAxioms p.config p.axioms p.source)
    fun _ s => Store.SameTerms p.store s := by
  have has := posed.has.of_subset fun eq h => (mem_worklist.1 h).1
  refine (reserveAll_spec posed.wellFormed has).bind ?_
  rintro supply s wf - ⟨-, same⟩
  exact .pure wf same

/-- A run starts with given terms if its axioms are such terms. -/
theorem underway_start (posed : p.Posed sig) (given : p.store.AmongAll I p.axioms)
    (confined : p.store.Confined J) (steps : p.config.maxSteps = none) (time : p.config.timeLimit = none) :
    Underway laws I J (p.start.1.setStop false) p.start.2 := by
  have wf := posed.wellFormed
  obtain ⟨wf', le, -, presents⟩ := start_spec (G := laws.groundGauge) posed
  obtain ⟨-, -, same⟩ := start_same posed
  have fine := (presents fun no => no.elim).fine
  have here : p.start.1.equations = p.worklist := rfl
  refine ⟨wf', ⟨fine.equations, fine.rules, fine.descends, nofun⟩, ⟨?_, nofun⟩,
    ⟨same.confined confined, rfl⟩, ?_, rfl, steps, time⟩
  · intro d hd
    have old : d ∈ p.worklist := hd
    exact (given.mono wf wf' le) d (mem_worklist.1 old).1
  · intro d hd
    have old : d ∈ p.worklist := hd
    exact (mem_worklist.1 old).2

/-- A complete run with ground rules decides equality, whatever supply of variables it has. -/
theorem Kept.decides {rules : List Equation} (laws : ReductionOrder sig gt) (posed : p.Posed sig)
    (obeys : o.Obeys laws.groundGauge) (grows : o.Grows) (kept : p.Kept laws.groundGauge e s)
    (rests : e.Rests rules) (ground : s.AmongAll Term.IsGround rules) : Decides p.theory sig e s := by
  intro e' s' later ctx eq l r b means hl hr ok
  obtain ⟨kept', rests', le⟩ := GoesOn.kept (G := laws.groundGauge) later posed obeys grows kept rests
  -- the order of the call is not asked, so that it may be taken for one that is right
  have asked : (ctx.withOrder o).order.Obeys laws.groundGauge := obeys
  obtain ⟨same, rests''⟩ : equal (ctx.withOrder o) eq e' s' = equal ctx eq e' s' ∧
      (equal ctx eq e' s').1.2.Rests rules := equal_rests eq e' s' rests'
  have ok' : answer (equal (ctx.withOrder o) eq) e' s' = .ok b := by rwa [answer, same]
  have spec := equal_spec asked kept'.wellFormed (Posed.fits (G := laws.groundGauge) posed) kept'.presents
    means hl hr
  obtain ⟨inv, answers⟩ := Kept.answers spec ok'
  obtain ⟨wf', le', -⟩ := spec
  have still : (after (equal (ctx.withOrder o) eq) e' s').1.Rests rules := by rwa [after, same]
  have live : (after (equal (ctx.withOrder o) eq) e' s').1.status ≠ .failed := by
    simp [still.complete]
  have among := (ground.mono kept.wellFormed kept'.wellFormed le).mono kept'.wellFormed wf' le'
  rw [← still.rules] at among
  exact answers.iff_derives_of_complete laws inv still.complete
    (closed_of_apart among (inv.reduced trivial live).lefts) hl hr

/-- With enough fuel completion of given axioms, any two sides of which are comparable, is at its end, with a
normalization that takes too long or with a complete run. -/
theorem complete_ends (realm : Realm laws.groundGauge I J) (reliable : p.order.Reliable Q I gt)
    (total : ∀ {a b : Term}, I a → I b → a ≠ b → gt a b ∨ gt b a) {mark : Var}
    (unmarked : ∀ n, ¬ Q (.var mark) n) (start : Underway laws I J (p.start.1.setStop false) p.start.2)
    (all : ∀ s, Store.Grown p.start.2 s → s.WellFormed → s.Confined J → s.All Q)
    (same : ctx.order = p.order) :
    ∃ N out, Concludes I J out ∧ ∀ fuel ≥ N, complete (ctx.withFuel fuel) p.start.1 p.start.2 = out ∧
      complete ((ctx.withFuel fuel).withOrder (p.order.corrected Q I gt mark)) p.start.1 p.start.2 = out := by
  have obeys : (ctx.withOrder (p.order.corrected Q I gt mark)).order.Obeys laws.groundGauge :=
    reliable.obeys laws
  obtain ⟨N, out, concludes, runs⟩ := completeFrom_ends realm obeys reliable.quiet total start
  refine ⟨N, out, concludes, fun fuel enough => ?_⟩
  have ideal : completeFrom ((ctx.withFuel fuel).withOrder (p.order.corrected Q I gt mark)) fuel 0
      (p.start.1.setStop false) p.start.2 = out := runs fuel enough fuel enough 0
  refine ⟨?_, ideal⟩
  -- the store at the end shows that the right answers were the actual ones
  have tracks : ((ctx.withFuel fuel).withOrder (p.order.corrected Q I gt mark)).order.Tracks Q p.order :=
    reliable.tracks unmarked
  obtain ⟨grown, agrees⟩ := completeFrom_tracks tracks fuel 0 (p.start.1.setStop false) p.start.2
  rw [ideal] at grown agrees
  have actual := agrees (all _ grown concludes.wellFormed concludes.tame.1)
  rwa [← same] at actual

/-- The axioms are ground terms over the symbols of a table, in a store that was filled term by term. For the
Knuth-Bendix order no term is too large for its node count. -/
structure PosesGround (p : Problem) (kind : OrderKind) (symbols : SymbolTable) : Prop where
  wellFormed : p.store.WellFormed
  made : Store.Grown .empty p.store
  small : kind = .kbo → ∀ r < p.store.size, (p.store.term r).size < 2 ^ 32
  axioms : p.store.AmongAll (fun t => t.Over (.named symbols) ∧ t.IsGround) p.axioms

section
variable {kind : OrderKind} {symbols : SymbolTable} {ranked : List Symbol}

theorem PosesGround.given (h : p.PosesGround kind symbols) :
    p.store.AmongAll (kind.Given symbols) p.axioms := by
  intro eq heq
  obtain ⟨_, _, ⟨⟨hl, rfl⟩, hr, rfl⟩, left, right⟩ := h.axioms eq heq
  exact ⟨_, _, ⟨⟨hl, rfl⟩, hr, rfl⟩, ⟨left.1, left.2, fun same => h.small same _ hl⟩,
    right.1, right.2, fun same => h.small same _ hr⟩

theorem PosesGround.posed (h : p.PosesGround kind symbols)
    (le : ∀ f n, Signature.named symbols f n → sig f n) : p.Posed sig := by
  refine ⟨h.wellFormed, fun eq heq => ?_⟩
  obtain ⟨l, r, means, ⟨hl, -⟩, hr, -⟩ := h.axioms eq heq
  exact ⟨l, r, means, hl.mono le, hr.mono le⟩

/-- Completion of ground axioms always ends, with a normalization that takes too long or with a complete run
that decides equality. -/
theorem complete_ground (order : p.order = .ofKind (Precedence.compare symbols (.ranking ranked)) kind)
    (posed : p.PosesGround kind symbols) (steps : p.config.maxSteps = none)
    (time : p.config.timeLimit = none) (same : ctx.order = p.order) :
    ∃ N out, (∀ fuel ≥ N, complete (ctx.withFuel fuel) p.start.1 p.start.2 = out) ∧
      ((∃ start last shot, out.1.1 = .error (.error ⟨.reductionDivergence start last, shot⟩)) ∨
        out.1.1 = .ok () ∧ out.1.2.status = .complete ∧ out.1.2.equations = [] ∧
          Decides p.theory (.interned symbols) out.1.2 out.2) := by
  have le : ∀ f n, Signature.named symbols f n → Signature.interned symbols f n :=
    fun _ _ => Signature.interned_of_named
  have laws := kind.reductionOrder symbols ranked le
  have laws' : ReductionOrder (.interned symbols) (kind.gt symbols ranked) :=
    kind.reductionOrder symbols ranked fun _ _ h => h
  have reliable : p.order.Reliable (kind.Measured symbols p.store) (kind.Given symbols)
      (kind.gt symbols ranked) := order ▸ kind.reliable symbols ranked p.store
  obtain ⟨mark, unmarked⟩ := kind.exists_unmeasured symbols p.store
  have confined : p.store.Confined (kind.Stored symbols p.store) := fun r hr =>
    .inl ⟨r, Store.denotes_term hr⟩
  have posed₁ := posed.posed fun _ _ h => h
  have posed₂ := posed.posed le
  have start : Underway laws _ _ _ _ := underway_start posed₁ posed.given confined steps time
  have started := ofAxioms_grows p.config p.axioms p.source p.store
  -- the terms that are stored along the way are the given ones, and their subterms
  have measured : ∀ s, p.start.2.Grown s → s.WellFormed → s.Confined (kind.Stored symbols p.store) →
      s.All (kind.Measured symbols p.store) := fun s grown wf confined =>
    OrderKind.all_measured (posed.made.trans (started.trans grown)) wf.below confined posed.small
  obtain ⟨N, out, concludes, runs⟩ :=
    complete_ends (OrderKind.realm laws) reliable OrderKind.total unmarked start measured same
  refine ⟨N, out, fun fuel enough => (runs fuel enough).1, ?_⟩
  cases outcome : out.1.1 with
  | error halt =>
      obtain ⟨start, last, shot, rfl⟩ := concludes.diverges halt outcome
      exact .inl ⟨start, last, shot, rfl⟩
  | ok _ =>
      right
      have done := concludes.complete outcome
      have obeys : (p.order.corrected _ _ _ mark).Obeys laws'.groundGauge := reliable.obeys laws'
      obtain ⟨wf, le, -, presents⟩ := start_spec (G := laws'.groundGauge) posed₂
      have before : p.Kept laws'.groundGauge p.start.1 p.start.2 := ⟨wf, le, presents nofun⟩
      have kept : p.Kept laws'.groundGauge out.1.2 out.2 := by
        have asked : ((ctx.withFuel N).withOrder (p.order.corrected _ _ _ mark)).order.Obeys
            laws'.groundGauge := obeys
        have called := before.call posed₂ asked .complete nofun
        rwa [Call.run, after, (runs N le_rfl).2] at called
      have nothing := kept.presents.complete done
      refine ⟨rfl, done, nothing, kept.decides laws' posed₂ obeys ?_ ⟨done, nothing, rfl⟩ ?_⟩
      · exact fun r q s => ((reliable.tracks unmarked).greater r q s).1
      · intro rule mem
        obtain ⟨l, r, means, hl, hr⟩ := (concludes.within outcome).rules rule mem
        exact ⟨l, r, means, hl.ground, hr.ground⟩

/-- Ground axioms that are given as terms. -/
theorem posesGround_ofTerms {pairs : List (Term × Term)} {config : Config}
    (ground : ∀ d ∈ pairs,
      (d.1.Over (.named symbols) ∧ d.1.IsGround) ∧ d.2.Over (.named symbols) ∧ d.2.IsGround)
    (small : ∀ r < (ofTerms o pairs).store.size, ((ofTerms o pairs).store.term r).size < 2 ^ 32) :
    PosesGround { ofTerms o pairs with config } kind symbols := by
  have inSig : ∀ d ∈ pairs, d.1.Over (.named symbols) ∧ d.2.Over (.named symbols) :=
    fun d hd => ⟨(ground d hd).1.1, (ground d hd).2.1⟩
  have posed : (ofTerms o pairs).Posed (.named symbols) := posed_ofTerms inSig
  have made : Store.Grown .empty (ofTerms o pairs).store := grown_ofTerms
  refine ⟨posed.wellFormed, made, fun _ => small, fun eq heq => ?_⟩
  obtain ⟨l, r, means, -⟩ := posed.has eq heq
  have mem : (l, r) ∈ (ofTerms o pairs).theory := Store.mem_theory heq means
  rw [theory_ofTerms inSig] at mem
  exact ⟨l, r, means, ground (l, r) mem⟩

end

/-- A symbol exchanges two letters. -/
def exchange : Problem :=
  { ofTerms (.kbo letters []) [(word [letterA], letterB), (word [letterB], letterA)] with
    config := { maxSteps := none } }

theorem exchange_posesGround : exchange.PosesGround .kbo letters := by
  refine posesGround_ofTerms (fun d hd => ?_) (by decide +kernel)
  rcases List.mem_pair.1 hd with rfl | rfl
  · exact ⟨⟨word_over (by simp [letterA_over]), rfl⟩, letterB_over, rfl⟩
  · exact ⟨⟨word_over (by simp [letterB_over]), rfl⟩, letterA_over, rfl⟩

theorem complete_ground_exchange : exchange.PosesGround .kbo letters ∧
    ∃ N out, (∀ fuel ≥ N, complete ((lettersContext exchange.order).withFuel fuel) exchange.start.1
        exchange.start.2 = out) ∧
      ((∃ start last shot, out.1.1 = .error (.error ⟨.reductionDivergence start last, shot⟩)) ∨
        out.1.1 = .ok () ∧ out.1.2.status = .complete ∧ out.1.2.equations = [] ∧
          Decides exchange.theory (.interned letters) out.1.2 out.2) :=
  ⟨exchange_posesGround, complete_ground rfl exchange_posesGround rfl rfl rfl⟩

/-- The run on it is complete. -/
example : (exchange.runCalls (lettersContext exchange.order) [.complete]).1.status = .complete := by
  decide +kernel

end Problem
end OrderedCompletion
