import OrderedCompletion.Engine.Query
import OrderedCompletion.Proofs.Reduced

/-! What every call of a run keeps, whether it succeeds or fails. -/

namespace OrderedCompletion.Engine

variable {G : Gauge} {A : Theory} {ctx : Context} {e e' : Engine} {s s' : Store} {eq : Equation}
variable {α β : Type} {u : Bool}

/-- Every equation with everything, and every rule with every rule. -/
def sources (e : Engine) : List (Equation × Bool) :=
  e.equations.map (·, true) ++ e.rules.map (·, false)

/-- All overlaps of equations, in both directions, and of rules are connected. -/
def AllConnected (G : Gauge) (s : Store) (e : Engine) : Prop :=
  G.Sharp → ∀ d ∈ e.allDonors e.sources, Connected G s (e.theory s) d

/-- The run says what `A` says, and its status is right. -/
structure Presents (G : Gauge) (A : Theory) (u : Bool) (s : Store) (e : Engine) : Prop where
  unfailing : e.config.unfailing = u
  fine : Fine G s e
  sound : ∀ l r, (l, r) ∈ e.theory s → Derives A l r
  covers : G.Covers A (e.theory s)
  peaks : e.status ≠ .failed → Peaks G s e
  reduced : G.strict → e.status ≠ .failed → Reduced s e
  complete : e.status = .complete → e.equations = []
  ground : e.status = .groundComplete → AllConnected G s e

theorem Presents.of_evolves (h : Presents G A u s e) (fits : G.Fits A) (ev : Evolves G s e s' e')
    (peaks : e'.status ≠ .failed → Peaks G s' e') (reduced : G.strict → e'.status ≠ .failed → Reduced s' e')
    (complete : e'.status = .complete → e'.equations = [])
    (ground : e'.status = .groundComplete → AllConnected G s' e') : Presents G A u s' e' where
  unfailing := ev.config ▸ h.unfailing
  fine := ev.fine
  sound := fun l r hl => (ev.sound l r hl).cut h.sound
  covers := h.covers.trans ev.covers fits
  peaks := peaks
  reduced := reduced
  complete := complete
  ground := ground

theorem Beside.sources (h : Beside e e') : e'.sources = e.sources := by
  rw [Engine.sources, Engine.sources, h.equations, h.rules]

theorem Beside.allDonors (h : Beside e e') (sources : List (Equation × Bool)) :
    e'.allDonors sources = e.allDonors sources := by
  simp only [Engine.allDonors, donors_of_beside h]

theorem Presents.aside (h : Presents G A u s e) (fits : G.Fits A) (aside : Aside e e')
    (wf : s.WellFormed) (wf' : s'.WellFormed) (le : s ≤ s') : Presents G A u s' e' := by
  have adv := aside.advances h.fine wf wf' le
  refine h.of_evolves fits adv.toEvolves (fun live => ?_) (fun strict live => ?_) (fun done => ?_)
    fun done sharp d hd => ?_
  · exact adv.peaks (h.peaks (aside.status ▸ live))
  · have reduced := (h.reduced strict (aside.status ▸ live)).mono wf wf' le
    exact reduced.of_subset aside.rules (aside.equations ▸ fun _ hc => hc)
  · rw [aside.equations]
    exact h.complete (aside.status ▸ done)
  · rw [aside.toBeside.sources, aside.toBeside.allDonors] at hd
    exact ((h.ground (aside.status ▸ done) sharp d hd).mono wf wf' le).cover adv.covers

theorem Presents.advances (h : Presents G A u s e) (fits : G.Fits A) (running : e.status = .running)
    (wf : s.WellFormed) (wf' : s'.WellFormed) (le : s ≤ s') (adv : Advances G s e s' e')
    (stepped : Stepped G e s' e') : Presents G A u s' e' := by
  have status := adv.status.trans running
  have live : e.status ≠ .failed := by
    rw [running]
    exact nofun
  refine h.of_evolves fits adv.toEvolves (fun _ => adv.peaks (h.peaks live)) (fun strict _ => ?_)
    (fun done => ?_) fun done => ?_
  · exact stepped.reduced strict ((h.reduced strict live).mono wf wf' le)
  · rw [status] at done
    cases done
  · rw [status] at done
    cases done

/-- A run that failed half-way still says what it said. -/
theorem Presents.failed (h : Presents G A u s e) (fits : G.Fits A) (ev : Evolves G s e s' e') :
    Presents G A u s' { e' with status := .failed } where
  unfailing := ev.config ▸ h.unfailing
  fine := ⟨ev.fine.equations, ev.fine.rules, ev.fine.descends, ev.fine.distinct⟩
  sound := fun l r hl => (ev.sound l r hl).cut h.sound
  covers := h.covers.trans ev.covers fits
  peaks := fun live => absurd rfl live
  reduced := fun _ live => absurd rfl live
  complete := nofun
  ground := nofun

/-- The call leaves a run that says what `A` says, also if it fails. -/
abbrev Keeping (G : Gauge) (A : Theory) (u : Bool) (e : Engine) (s : Store) (x : EngineM α)
    (Q : α → Engine → Store → Prop) : Prop :=
  TermM.Ensures e s x (fun a e' s' => Presents G A u s' e' ∧ Q a e' s') fun e' s' => Presents G A u s' e'

theorem Leaves.keeping {x : EngineM α} {P : α → Store → Prop} (h : Leaves e s x P)
    (wf : s.WellFormed) (fits : G.Fits A) (inv : Presents G A u s e) :
    Keeping G A u e s x fun a e' s' => Aside e e' ∧ P a s' :=
  TermM.Ensures.mono h (fun _ _ _ wf' le' h => ⟨inv.aside fits h.1 wf wf' le', h⟩)
    fun _ _ wf' le' h => inv.aside fits h wf wf' le'

theorem poisonOnError_apply (x : EngineM α) : poisonOnError x e s =
    match (x e s).1.1 with
    | .ok a => ((.ok a, (x e s).1.2), (x e s).2)
    | .error h => ((.error h, { (x e s).1.2 with status := .failed }), (x e s).2) := by
  unfold poisonOnError
  simp only [tryCatch, tryCatchThe, MonadExceptOf.tryCatch, ExceptT.tryCatch, ExceptT.mk, bind,
    StateT.bind]
  rcases x e s with ⟨⟨_ | _, _⟩, _⟩
  · rfl
  · rfl

theorem poisonOnError_spec {x : EngineM α} {Q : α → Engine → Store → Prop} {F F' : Engine → Store → Prop}
    (h : TermM.Ensures e s x Q F)
    (err : ∀ e' s', s'.WellFormed → s ≤ s' → F e' s' → F' { e' with status := .failed } s') :
    TermM.Ensures e s (poisonOnError x) Q F' := by
  obtain ⟨wf, le, h⟩ := h
  rw [TermM.Ensures, poisonOnError_apply]
  cases hr : (x e s).1.1 with
  | ok a =>
      rw [hr] at h
      exact ⟨wf, le, h⟩
  | error halt =>
      rw [hr] at h
      exact ⟨wf, le, err _ _ wf le h⟩

theorem advance_spec (obeys : ctx.order.Obeys G) (wf : s.WellFormed) (fits : G.Fits A)
    (inv : Presents G A u s e) (running : e.status = .running) :
    Keeping G A u e s (advance ctx) fun _ e' _ => e'.status = .running :=
  poisonOnError_spec ((advanceInner_spec obeys wf inv.fine).mono
    (fun _ _ _ wf' le' h => ⟨inv.advances fits running wf wf' le' h.1 h.2, h.1.status.trans running⟩)
    fun _ _ _ _ h => h) fun _ _ _ _ ev => inv.failed fits ev

theorem allUnorientable_spec {es : List Equation} (obeys : ctx.order.Obeys G) (wf : s.WellFormed)
    (has : s.HasAll G.sig es) : Leaves e s (allUnorientable ctx es) fun yes _ => yes = true → G.strict →
      ∀ d ∈ es, ∀ l r, s.Means d (l, r) → ¬ G.gt l r ∧ ¬ G.gt r l := by
  induction es generalizing e s with
  | nil => exact .pure wf fun _ _ _ h => by cases h
  | cons d es ih =>
      rw [allUnorientable]
      refine (orientable_spec obeys wf (has d List.mem_cons_self)).bind fun yes e₁ s₁ wf₁ le₁ none => ?_
      split
      · exact .pure wf₁ nofun
      · rename_i no
        have rest := has.of_subset (List.subset_cons_self d es)
        refine (ih wf₁ (rest.mono wf wf₁ le₁)).mono fun all s₂ _ _ others isTrue strict c hc l r means => ?_
        rcases List.mem_cons.1 hc with rfl | hc
        · exact none l r means (eq_false_of_ne_true no) strict
        · exact others isTrue strict c hc l r (Equation.means_mono means wf wf₁ le₁)

theorem theory_active_subset : s.theory e.rules ∪ s.theory e.activeEquations ⊆ e.theory s := by
  rw [theory, activeEquations]
  split
  · exact (Set.union_comm _ _).subset
  · rw [Store.theory_nil, Set.union_empty]
    exact Set.subset_union_right

/-- Normalizing both sides leads to a stored equation that bridges the given one. -/
theorem normalizeSides_bridges {l r : Term} (obeys : ctx.order.Obeys G) (wf : s.WellFormed)
    (fine : Fine G s e) (means : s.Means eq (l, r)) (hl : l.Over G.sig) (hr : r.Over G.sig) :
    Leaves e s (normalizeSides ctx eq) fun out s' => s'.Has G.sig out ∧
      ∀ T, e.theory s ⊆ T → (∀ x y, s'.Means out (x, y) → G.Bridges T x y) → G.Bridges T l r := by
  refine (normalizeSides_spec obeys wf fine.reducibleActive means hl hr).mono ?_
  rintro out s' - - ⟨⟨x, hx, left, -⟩, y, hy, right, -⟩
  refine ⟨⟨x, y, ⟨hx, hy⟩, left.inSig hl, right.inSig hr⟩, fun T sub bridges => ?_⟩
  have known := theory_active_subset.trans sub
  exact .of_descent hl hr ((left.descent fine.descends hl).mono known)
    ((right.descent fine.descends hr).mono known) (bridges x y ⟨hx, hy⟩)

theorem means_eq_of_trivial {x y : Term} (trivial : eq.isTrivial = true) (means : s.Means eq (x, y)) :
    x = y := by
  have same : eq.lhs = eq.rhs := of_decide_eq_true trivial
  exact means.1.unique (same ▸ means.2)

theorem mem_unlessTrivial {found : List Equation} {c d : Equation} :
    d ∈ (if c.isTrivial then found else addNew found c) ↔ d ∈ found ∨ c.isTrivial = false ∧ d = c := by
  split
  · rename_i isTrivial
    simp [isTrivial]
  · rename_i other
    simp [Superposition.mem_addNew, other]

theorem covers_nil {T : Theory} : G.Covers (s.theory []) T := by
  rw [Store.theory_nil]
  exact fun _ _ h => h.elim

theorem covers_cons {T : Theory} {pair : Equation} {pairs : List Equation} {l r : Term}
    (means : s.Means pair (l, r)) (head : G.Bridges T l r) (tail : G.Covers (s.theory pairs) T) :
    G.Covers (s.theory (pair :: pairs)) T := by
  intro x y hx
  rcases (Store.mem_theory_cons means).1 hx with ⟨rfl, rfl⟩ | later
  · exact head
  · exact tail x y later

theorem normalizePairs_spec {found pairs : List Equation} (obeys : ctx.order.Obeys G)
    (wf : s.WellFormed) (fine : Fine G s e) (hasFound : s.HasAll G.sig found)
    (hasPairs : s.HasAll G.sig pairs) :
    Leaves e s (normalizePairs ctx found pairs) fun out s' => s'.HasAll G.sig out ∧ found ⊆ out ∧
      ∀ T, e.theory s ⊆ T → G.Covers (s'.theory out) T → G.Covers (s.theory pairs) T := by
  induction pairs generalizing e s found with
  | nil => exact .pure wf ⟨hasFound, fun _ h => h, fun _ _ _ => covers_nil⟩
  | cons pair pairs ih =>
      rw [normalizePairs]
      obtain ⟨l, r, means, hl, hr⟩ := hasPairs pair List.mem_cons_self
      refine (normalizeSides_bridges obeys wf fine means hl hr).thread ?_
      rintro c e₁ s₁ wf₁ le₁ aside ⟨has, bridges⟩
      have fine₁ := (aside.advances fine wf wf₁ le₁).fine
      have theory₁ := aside.theory_eq fine wf wf₁ le₁
      have rest := hasPairs.of_subset (List.subset_cons_self pair pairs)
      have hasFound₁ : s₁.HasAll G.sig (if c.isTrivial then found else addNew found c) := by
        intro d hd
        rcases mem_unlessTrivial.1 hd with hd | ⟨-, rfl⟩
        · exact hasFound.mono wf wf₁ le₁ d hd
        · exact has
      refine (ih wf₁ fine₁ hasFound₁ (rest.mono wf wf₁ le₁)).mono ?_
      rintro out s₂ wf₂ le₂ ⟨hasOut, sub, covers⟩
      refine ⟨hasOut, fun d hd => sub (mem_unlessTrivial.2 (.inl hd)), ?_⟩
      intro T known cover
      have later := covers T (theory₁ ▸ known) cover
      rw [rest.theory_eq wf wf₁ le₁] at later
      refine covers_cons means (bridges T known fun x y means₁ => ?_) later
      by_cases isTrivial : c.isTrivial = true
      · obtain rfl := means_eq_of_trivial isTrivial means₁
        exact .refl x
      · have inOut : c ∈ out := sub (mem_unlessTrivial.2 (.inr ⟨by simpa using isTrivial, rfl⟩))
        exact cover x y (Store.mem_theory inOut (Equation.means_mono means₁ wf₁ wf₂ le₂))

theorem pairsMeet_spec {pairs : List Equation} (obeys : ctx.order.Obeys G) (wf : s.WellFormed)
    (fine : Fine G s e) (has : s.HasAll G.sig pairs) :
    Leaves e s (pairsMeet ctx pairs) fun yes _ => yes = true → G.Covers (s.theory pairs) (e.theory s) := by
  induction pairs generalizing e s with
  | nil => exact .pure wf fun _ => covers_nil
  | cons pair pairs ih =>
      rw [pairsMeet]
      obtain ⟨l, r, means, hl, hr⟩ := has pair List.mem_cons_self
      refine (normalizeSides_bridges obeys wf fine means hl hr).thread ?_
      rintro c e₁ s₁ wf₁ le₁ aside ⟨-, bridges⟩
      split
      · rename_i isTrivial
        have fine₁ := (aside.advances fine wf wf₁ le₁).fine
        have theory₁ := aside.theory_eq fine wf wf₁ le₁
        have rest := has.of_subset (List.subset_cons_self pair pairs)
        refine (ih wf₁ fine₁ (rest.mono wf wf₁ le₁)).mono ?_
        intro yes s₂ wf₂ le₂ covers meet
        have later := covers meet
        rw [rest.theory_eq wf wf₁ le₁, theory₁] at later
        refine covers_cons means (bridges _ subset_rfl fun x y means₁ => ?_) later
        obtain rfl := means_eq_of_trivial isTrivial means₁
        exact .refl x
      · exact .pure wf₁ nofun

/-- The overlaps of sources whose pairs join are connected. -/
theorem sourcesJoin_spec {sources : List (Equation × Bool)} (obeys : ctx.order.Obeys G)
    (wf : s.WellFormed) (fine : Fine G s e)
    (follows : ∀ source ∈ sources, Superposition.Follows G s (e.theory s) source.1) :
    Leaves e s (sourcesJoin ctx sources) fun yes s' => yes = true → G.Sharp →
      ∀ d ∈ e.allDonors sources, Connected G s' (e.theory s) d := by
  induction sources generalizing e s with
  | nil => exact .pure wf fun _ _ d hd => by cases hd
  | cons source sources ih =>
      obtain ⟨eq, withEquations⟩ := source
      rw [sourcesJoin]
      refine (superposeAfresh_spec obeys wf (fine.donates (follows _ List.mem_cons_self))).thread ?_
      rintro pairs e₁ s₁ wf₁ le₁ aside₁ ⟨followPairs, connected⟩
      have fine₁ := (aside₁.advances fine wf wf₁ le₁).fine
      have theory₁ := aside₁.theory_eq fine wf wf₁ le₁
      have hasPairs := hasAll_of_follows followPairs
      refine (normalizePairs_spec obeys wf₁ fine₁ (fun _ h => (by cases h)) hasPairs).thread ?_
      rintro reduced e₂ s₂ wf₂ le₂ aside₂ ⟨hasReduced, -, covers⟩
      have fine₂ := (aside₂.advances fine₁ wf₁ wf₂ le₂).fine
      have theory₂ := (aside₂.theory_eq fine₁ wf₁ wf₂ le₂).trans theory₁
      refine .bindGet (.bindLift (filterSubsumed_spec wf₂ fine₂.equations hasReduced) ?_)
      rintro left s₃ wf₃ le₃ ⟨same, mem⟩
      have hasLeft : s₃.HasAll G.sig left :=
        (hasReduced.of_subset fun c hc => ((mem c).1 hc).1).mono wf₂ wf₃ le₃
      have fine₃ := fine₂.mono wf₂ wf₃ le₃
      have theory₃ := (fine₂.theory_eq wf₂ wf₃ le₃).trans theory₂
      refine (pairsMeet_spec obeys wf₃ fine₃ hasLeft).thread ?_
      intro yes e₄ s₄ wf₄ le₄ aside₄ meet
      split
      · rename_i isTrue
        have aside := aside₁.trans (aside₂.trans aside₄)
        have le := le₁.trans (le₂.trans (le₃.trans le₄))
        have fine₄ := (aside.advances fine wf wf₄ le).fine
        have theory₄ := aside.theory_eq fine wf wf₄ le
        refine (ih wf₄ fine₄ fun source hsource => ?_).mono ?_
        · rw [theory₄]
          exact (follows source (List.mem_cons_of_mem _ hsource)).mono wf wf₄ le
        · intro yes s₅ wf₅ le₅ later isTrue' sharp d hd
          rcases List.mem_append.1 hd with hd | hd
          · have coversReduced : G.Covers (s₂.theory reduced) (e.theory s) := by
              refine covers_of_subsumed hasReduced mem ?_ ?_
              · exact theory₂ ▸ .of_subset fine₂.equations.fits Set.subset_union_left
              · rw [← same.theory, ← theory₃]
                exact meet isTrue
            have coversPairs := covers (e.theory s) theory₁.subset coversReduced
            have here := connected sharp.1 (fine.distinct sharp.2) d hd _ coversPairs
            exact here.mono wf₁ wf₅ (le₂.trans (le₃.trans (le₄.trans le₅)))
          · have there := later isTrue' sharp d (by rwa [aside.toBeside.allDonors])
            rwa [theory₄] at there
      · exact .pure wf₄ nofun

theorem allPairsJoin_spec (obeys : ctx.order.Obeys G) (wf : s.WellFormed) (fine : Fine G s e) :
    Leaves e s (allPairsJoin ctx) fun yes s' => yes = true → G.Sharp →
      ∀ d ∈ e.allDonors e.sources, Connected G s' (e.theory s) d := by
  rw [allPairsJoin]
  refine .bindGet (sourcesJoin_spec obeys wf fine fun source hsource => ?_)
  rcases List.mem_append.1 hsource with h | h
  · obtain ⟨d, hd, rfl⟩ := List.mem_map.1 h
    exact fine.follows_equation hd
  · obtain ⟨d, hd, rfl⟩ := List.mem_map.1 h
    exact fine.follows_rule hd

/-- A run whose status changes to one that is right keeps what it says. -/
theorem Presents.withStatus {status : Status} (h : Presents G A u s e) (live : e.status = .running)
    (complete : status = .complete → e.equations = [])
    (ground : status = .groundComplete → AllConnected G s e) :
    Presents G A u s { e with status } where
  unfailing := h.unfailing
  fine := ⟨h.fine.equations, h.fine.rules, h.fine.descends, h.fine.distinct⟩
  sound := h.sound
  covers := h.covers
  peaks := fun _ => h.peaks (by rw [live]; exact nofun)
  reduced := fun strict _ => (h.reduced strict (by rw [live]; exact nofun)).of_subset rfl fun _ hc => hc
  complete := complete
  ground := ground

/-- The run is at its end, with the equations and rules it had. -/
structure Ended (e e' : Engine) : Prop where
  config : e'.config = e.config
  equations : e'.equations = e.equations
  rules : e'.rules = e.rules
  ended : e'.isGroundComplete = true
  status : e.isGroundComplete = true → e'.status = e.status

/-- The answer tells whether the run is at its end. -/
theorem checkTerminal_spec (obeys : ctx.order.Obeys G) (wf : s.WellFormed) (fits : G.Fits A)
    (inv : Presents G A u s e) :
    Keeping G A u e s (checkTerminal ctx) fun yes e' _ =>
      (yes = true → Ended e e') ∧ (yes = false → e'.status = .running ∧ e.status = .running) := by
  rw [checkTerminal]
  refine .bindGet ?_
  split
  · rename_i done
    exact .pure wf ⟨inv, fun _ => ⟨rfl, rfl, rfl, by simp [isGroundComplete, done], fun _ => rfl⟩, nofun⟩
  · rename_i done
    exact .pure wf ⟨inv, fun _ => ⟨rfl, rfl, rfl, by simp [isGroundComplete, done], fun _ => rfl⟩, nofun⟩
  · exact fail_spec wf inv
  · rename_i running
    have open_ : ¬ e.isGroundComplete = true := by simp [isGroundComplete, running]
    refine .bindGet ?_
    dsimp only
    split
    · rename_i empty
      refine .bindModify (.pure wf ⟨?_, fun _ => ⟨rfl, rfl, rfl, rfl, fun h => absurd h open_⟩, nofun⟩)
      exact inv.withStatus running (fun _ => List.isEmpty_iff.1 empty) nofun
    · refine TermM.Ensures.bind ((allUnorientable_spec obeys wf inv.fine.equations).keeping wf fits inv) ?_
      rintro yes e₁ s₁ wf₁ le₁ ⟨inv₁, aside₁, -⟩
      have running₁ := aside₁.status.trans running
      split
      · exact .pure wf₁ ⟨inv₁, nofun, fun _ => ⟨running₁, running⟩⟩
      · refine TermM.Ensures.bind (poisonOnError_spec (allPairsJoin_spec obeys wf₁ inv₁.fine)
          fun e₂ s₂ wf₂ le₂ aside₂ => ?_) ?_
        · exact inv₁.failed fits (aside₂.toBeside.evolves inv₁.fine wf₁ wf₂ le₂)
        rintro joined e₂ s₂ wf₂ le₂ ⟨aside₂, connected⟩
        have inv₂ := inv₁.aside fits aside₂ wf₁ wf₂ le₂
        have running₂ := aside₂.status.trans running₁
        have aside := aside₁.trans aside₂
        split
        · exact .pure wf₂ ⟨inv₂, nofun, fun _ => ⟨running₂, running⟩⟩
        · rename_i isTrue
          refine .bindModify (.pure wf₂ ⟨?_, fun _ => ⟨aside.config, aside.equations, aside.rules, rfl,
            fun h => absurd h open_⟩, nofun⟩)
          refine inv₂.withStatus running₂ nofun fun _ sharp d hd => ?_
          rw [aside₂.toBeside.sources, aside₂.toBeside.allDonors] at hd
          rw [aside₂.theory_eq inv₁.fine wf₁ wf₂ le₂]
          exact connected (by simpa using isTrue) sharp d hd

theorem step_spec (obeys : ctx.order.Obeys G) (wf : s.WellFormed) (fits : G.Fits A)
    (inv : Presents G A u s e) :
    Keeping G A u e s (step ctx) fun yes e' _ => yes = false → e'.status = .running := by
  rw [step]
  refine (checkTerminal_spec obeys wf fits inv).bind ?_
  rintro yes e₁ s₁ wf₁ le₁ ⟨inv₁, -, on⟩
  split
  · exact .pure wf₁ ⟨inv₁, nofun⟩
  · rename_i no
    refine (advance_spec obeys wf₁ fits inv₁ (on (by simpa using no)).1).bind ?_
    rintro _ e₂ s₂ wf₂ le₂ ⟨inv₂, running₂⟩
    exact .pure wf₂ ⟨inv₂, fun _ => running₂⟩

theorem checkBudget_spec {taken : Nat} (wf : s.WellFormed) :
    Leaves e s (checkBudget ctx taken) fun _ _ => True := by
  rw [checkBudget]
  refine .bindGet ?_
  split
  · exact fail_spec wf (.refl e)
  · exact Leaves.pure wf trivial

theorem completeFrom_spec {fuel taken : Nat} (obeys : ctx.order.Obeys G) (wf : s.WellFormed)
    (fits : G.Fits A) (inv : Presents G A u s e) :
    Keeping G A u e s (completeFrom ctx fuel taken) fun _ _ _ => True := by
  induction fuel generalizing e s taken with
  | zero => exact .throw wf inv
  | succ fuel ih =>
      rw [completeFrom]
      refine (checkTerminal_spec obeys wf fits inv).bind ?_
      rintro yes e₁ s₁ wf₁ le₁ ⟨inv₁, -, on⟩
      split
      · exact .pure wf₁ ⟨inv₁, trivial⟩
      · rename_i no
        refine ((checkBudget_spec wf₁).keeping wf₁ fits inv₁).bind ?_
        rintro _ e₂ s₂ wf₂ le₂ ⟨inv₂, aside₂, -⟩
        have running₂ := aside₂.status.trans (on (by simpa using no)).1
        refine (advance_spec obeys wf₂ fits inv₂ running₂).bind ?_
        rintro _ e₃ s₃ wf₃ le₃ ⟨inv₃, -⟩
        exact ih wf₃ inv₃

theorem setStop_aside (stop : Bool) : Aside e (e.setStop stop) := ⟨⟨rfl, rfl, rfl, rfl, .refl _⟩, rfl⟩

theorem complete_spec (obeys : ctx.order.Obeys G) (wf : s.WellFormed) (fits : G.Fits A)
    (inv : Presents G A u s e) : Keeping G A u e s (complete ctx) fun _ _ _ => True := by
  rw [complete]
  exact .bindModify (completeFrom_spec obeys wf fits (inv.aside fits (setStop_aside false) wf wf le_rfl))

theorem ensureUsable_spec (wf : s.WellFormed) : Leaves e s (ensureUsable ctx) fun _ _ => True := by
  rw [ensureUsable]
  refine .bindGet ?_
  split
  · exact fail_spec wf (.refl e)
  · exact Leaves.pure wf trivial

/-- One rewriting with the rules and active equations of a run. -/
abbrev Rewrites (G : Gauge) (s : Store) (e : Engine) : Term → Term → Prop :=
  G.Reduces (s.theory e.rules) (s.theory e.activeEquations)

/-- The term cannot be rewritten by the rules and active equations of a run. -/
abbrev Normal (G : Gauge) (s : Store) (e : Engine) : Term → Prop :=
  G.Settled (s.theory e.rules) (s.theory e.activeEquations)

theorem Rewrites.derives {a b : Term} (inv : Presents G A u s e) (h : Rewrites G s e a b)
    (ha : a.Over G.sig) : Derives A a b :=
  (((h.descent inv.fine.descends ha).mono theory_active_subset).derives).cut inv.sound

theorem Aside.rules_eq (h : Aside e e') (fine : Fine G s e) (wf : s.WellFormed) (wf' : s'.WellFormed)
    (le : s ≤ s') : s'.theory e'.rules = s.theory e.rules ∧
      s'.theory e'.activeEquations = s.theory e.activeEquations := by
  rw [h.rules, h.toBeside.activeEquations]
  have known := fine.reducibleActive
  exact ⟨known.hasRules.theory_eq wf wf' le, known.hasEquations.theory_eq wf wf' le⟩

/-- A positive answer comes from terms that meet, a negative one at the end of a run from different
normal forms. -/
structure Answers (G : Gauge) (e : Engine) (l r : Term) (b : Bool) (e' : Engine) (s' : Store) :
    Prop where
  meets : b = true → ∃ z, Rewrites G s' e' l z ∧ Rewrites G s' e' r z
  parts : b = false → e'.isGroundComplete = true ∧ ∃ x y, x ≠ y ∧ Rewrites G s' e' l x ∧
    Rewrites G s' e' r y ∧ (G.strict → Normal G s' e' x ∧ Normal G s' e' y)
  ended : e.isGroundComplete = true → Ended e e'

theorem equalFrom_spec {fuel taken : Nat} {l r : Term} (obeys : ctx.order.Obeys G)
    (wf : s.WellFormed) (fits : G.Fits A) (inv : Presents G A u s e) (means : s.Means eq (l, r))
    (hl : l.Over G.sig) (hr : r.Over G.sig) :
    Keeping G A u e s (equalFrom ctx eq fuel taken) (Answers G e l r) := by
  induction fuel generalizing e s taken with
  | zero => exact .throw wf inv
  | succ fuel ih =>
      rw [equalFrom]
      refine ((normalizeSides_spec obeys wf inv.fine.reducibleActive means hl hr).keeping wf fits
        inv).bind ?_
      rintro out e₁ s₁ wf₁ le₁ ⟨inv₁, aside₁, ⟨x, hx, left, settled⟩, y, hy, right, settled'⟩
      have still : e.isGroundComplete = true → e₁.isGroundComplete = true := by
        rw [isGroundComplete, isGroundComplete, aside₁.status]
        exact id
      obtain ⟨rules₁, active₁⟩ := aside₁.rules_eq inv.fine wf wf₁ le₁
      rw [← rules₁, ← active₁] at left right settled settled'
      split
      · rename_i isTrivial
        obtain rfl := means_eq_of_trivial isTrivial ⟨hx, hy⟩
        refine .pure wf₁ ⟨inv₁, fun _ => ⟨x, left, right⟩, fun h => (by cases h), fun done => ?_⟩
        exact ⟨aside₁.config, aside₁.equations, aside₁.rules, still done, fun _ => aside₁.status⟩
      · rename_i differ
        refine (checkTerminal_spec obeys wf₁ fits inv₁).bind ?_
        rintro yes e₂ s₂ wf₂ le₂ ⟨inv₂, done, on⟩
        have apart : x ≠ y := by
          rintro rfl
          exact differ (decide_eq_true (hx.inj hy wf₁))
        split
        · rename_i isTrue
          have ended := done isTrue
          have unchanged : s₂.theory e₂.rules = s₁.theory e₁.rules ∧
              s₂.theory e₂.activeEquations = s₁.theory e₁.activeEquations := by
            have known := inv₁.fine.reducibleActive
            rw [activeEquations, ended.rules, ended.equations, ended.config]
            exact ⟨known.hasRules.theory_eq wf₁ wf₂ le₂, known.hasEquations.theory_eq wf₁ wf₂ le₂⟩
          refine .pure wf₂ ⟨inv₂, fun h => (by cases h), fun _ => ⟨ended.ended, x, y, apart, ?_⟩,
            fun before => ?_⟩
          · rw [Rewrites, Normal, unchanged.1, unchanged.2]
            exact ⟨left, right, fun strict => ⟨settled strict, settled' strict⟩⟩
          · exact ⟨ended.config.trans aside₁.config, ended.equations.trans aside₁.equations,
              ended.rules.trans aside₁.rules, ended.ended,
              fun _ => (ended.status (still before)).trans aside₁.status⟩
        · rename_i no
          obtain ⟨running₂, running₁⟩ := on (by simpa using no)
          have open_ : ¬ e.isGroundComplete = true := by
            intro before
            have := still before
            simp [isGroundComplete, running₁] at this
          refine ((checkBudget_spec wf₂).keeping wf₂ fits inv₂).bind ?_
          rintro _ e₃ s₃ wf₃ le₃ ⟨inv₃, aside₃, -⟩
          refine (advance_spec obeys wf₃ fits inv₃ (aside₃.status.trans running₂)).bind ?_
          rintro _ e₄ s₄ wf₄ le₄ ⟨inv₄, running₄⟩
          have means₄ := Equation.means_mono means wf wf₄ (le₁.trans (le₂.trans (le₃.trans le₄)))
          exact (ih wf₄ inv₄ means₄).mono (fun _ _ _ _ _ h => ⟨h.1, h.2.meets, h.2.parts,
            fun before => absurd before open_⟩) fun _ _ _ _ h => h

theorem Aside.isGroundComplete (h : Aside e e') : e'.isGroundComplete = e.isGroundComplete := by
  rw [Engine.isGroundComplete, Engine.isGroundComplete, h.status]

theorem equal_spec {l r : Term} (obeys : ctx.order.Obeys G) (wf : s.WellFormed) (fits : G.Fits A)
    (inv : Presents G A u s e) (means : s.Means eq (l, r)) (hl : l.Over G.sig) (hr : r.Over G.sig) :
    Keeping G A u e s (equal ctx eq) (Answers G e l r) := by
  rw [equal]
  refine ((ensureUsable_spec wf).keeping wf fits inv).bind ?_
  rintro _ e₁ s₁ wf₁ le₁ ⟨inv₁, aside₁, -⟩
  have means₁ := Equation.means_mono means wf wf₁ le₁
  refine ((reserve_spec wf₁ means₁.1).keeping wf₁ fits inv₁).bind ?_
  rintro _ e₂ s₂ wf₂ le₂ ⟨inv₂, aside₂, -⟩
  have means₂ := Equation.means_mono means₁ wf₁ wf₂ le₂
  refine ((reserve_spec wf₂ means₂.2).keeping wf₂ fits inv₂).bind ?_
  rintro _ e₃ s₃ wf₃ le₃ ⟨inv₃, aside₃, -⟩
  refine .bindModify ?_
  have means₃ := Equation.means_mono means₂ wf₂ wf₃ le₃
  have inv₄ := inv₃.aside fits (setStop_aside false) wf₃ wf₃ le_rfl
  have aside := aside₁.trans (aside₂.trans (aside₃.trans (setStop_aside false)))
  refine (equalFrom_spec obeys wf₃ fits inv₄ means₃ hl hr).mono ?_ fun _ _ _ _ h => h
  rintro b e₅ s₅ wf₅ le₅ ⟨inv₅, meets, parts, ended⟩
  refine ⟨inv₅, meets, parts, fun before => ?_⟩
  have still := aside.isGroundComplete.trans before
  obtain ⟨config, equations, rules, done, status⟩ := ended still
  exact ⟨config.trans aside.config, equations.trans aside.equations, rules.trans aside.rules, done,
    fun _ => (status still).trans aside.status⟩

/-- The outcome is a normal form for the rules and active equations of the run. -/
abbrev NormalFormOf (G : Gauge) (e : Engine) (s : Store) (a : Term) (out : Ref) : Prop :=
  Reducer.Normalizes G (s.theory e.rules) (s.theory e.activeEquations) s a out

theorem reduce_spec {r : Ref} {a : Term} (obeys : ctx.order.Obeys G) (wf : s.WellFormed)
    (fits : G.Fits A) (inv : Presents G A u s e) (hd : s.Denotes r a) (ha : a.Over G.sig) :
    Keeping G A u e s (reduce ctx r) fun out e' s' => Aside e e' ∧ NormalFormOf G e' s' a out := by
  rw [reduce]
  refine ((ensureUsable_spec wf).keeping wf fits inv).bind ?_
  rintro _ e₁ s₁ wf₁ le₁ ⟨inv₁, aside₁, -⟩
  have hd₁ := hd.mono wf wf₁ le₁
  refine ((reserve_spec wf₁ hd₁).keeping wf₁ fits inv₁).bind ?_
  rintro _ e₂ s₂ wf₂ le₂ ⟨inv₂, aside₂, -⟩
  refine .bindGet ?_
  refine ((normalizeOne_spec obeys wf₂ inv₂.fine.reducibleActive (hd₁.mono wf₁ wf₂ le₂) ha).keeping wf₂
    fits inv₂).mono ?_ fun _ _ _ _ h => h
  rintro out e₃ s₃ wf₃ le₃ ⟨inv₃, aside₃, normalizes⟩
  obtain ⟨rules₃, active₃⟩ := aside₃.rules_eq inv₂.fine wf₂ wf₃ le₃
  refine ⟨inv₃, aside₁.trans (aside₂.trans aside₃), ?_⟩
  rwa [NormalFormOf, rules₃, active₃]

theorem normalForm_spec {r : Ref} {a : Term} (obeys : ctx.order.Obeys G) (wf : s.WellFormed)
    (fits : G.Fits A) (inv : Presents G A u s e) (hd : s.Denotes r a) (ha : a.Over G.sig) :
    Keeping G A u e s (normalForm ctx r) fun out e' s' => Aside e e' ∧ NormalFormOf G e' s' a out := by
  rw [normalForm]
  refine ((ensureUsable_spec wf).keeping wf fits inv).bind ?_
  rintro _ e₁ s₁ wf₁ le₁ ⟨inv₁, aside₁, -⟩
  have hd₁ := hd.mono wf wf₁ le₁
  refine .bindGet (.bindLift (Store.isGround_spec wf₁ hd₁) fun ground s₂ wf₂ le₂ _ => ?_)
  have inv₂ := inv₁.aside fits (.refl e₁) wf₁ wf₂ le₂
  have reduces : Keeping G A u e₁ s₂ (reduce ctx r) fun out e' s' =>
      Aside e e' ∧ NormalFormOf G e' s' a out :=
    (reduce_spec obeys wf₂ fits inv₂ (hd₁.mono wf₁ wf₂ le₂) ha).mono
      (fun _ _ _ _ _ h => ⟨h.1, aside₁.trans h.2.1, h.2.2⟩) fun _ _ _ _ h => h
  have refuses : ∀ failure, Keeping G A u e₁ s₂ (do fail ctx failure; reduce ctx r) fun out e' s' =>
      Aside e e' ∧ NormalFormOf G e' s' a out := by
    intro failure
    refine TermM.Ensures.bind (fail_spec (α := PUnit) (Q := fun _ _ _ => False) wf₂ inv₂) ?_
    exact fun _ _ _ _ _ no => no.elim
  dsimp only
  split
  · split
    · exact refuses _
    · exact reduces
  · split
    · exact refuses _
    · exact reduces

end OrderedCompletion.Engine
