import OrderedCompletion.Proofs.EngineActions

/-! How the equations and rules of a run evolve: nothing new is said, nothing is lost, and overlaps of
rules stay connected. -/

namespace OrderedCompletion.Engine

variable {G : Gauge} {ctx : Context} {e e' e'' : Engine} {s s' s'' : Store} {eq rule ab : Equation}
variable {a b l r : Term} {α : Type}

/-- What the equations and rules of a run say. -/
def theory (e : Engine) (s : Store) : Theory := s.theory e.equations ∪ s.theory e.rules

/-- Equations and rules are stored, rules go down, and no fresh variable comes twice if the gauge says so. -/
structure Fine (G : Gauge) (s : Store) (e : Engine) : Prop where
  equations : s.HasAll G.sig e.equations
  rules : s.HasAll G.sig e.rules
  descends : G.Descends (s.theory e.rules)
  distinct : G.distinct → e.workspace.supply.Distinct

/-- Nothing new is said, and nothing is lost. -/
structure Evolves (G : Gauge) (s : Store) (e : Engine) (s' : Store) (e' : Engine) : Prop where
  fine : Fine G s' e'
  sound : ∀ l r, (l, r) ∈ e'.theory s' → Derives (e.theory s) l r
  covers : G.Covers (e.theory s) (e'.theory s')
  config : e'.config = e.config
  status : e'.status = e.status

/-- All overlaps of rules, and of what has been superposed, are connected. -/
def Peaks (G : Gauge) (s : Store) (e : Engine) : Prop :=
  G.Sharp → ∀ d : Equation × Equation, d.1 ∈ e.rules ∧ d.2 ∈ e.rules ∨ e.seen.contains d = true →
    Connected G s (e.theory s) d

/-- Besides, overlaps stay connected. -/
structure Advances (G : Gauge) (s : Store) (e : Engine) (s' : Store) (e' : Engine) : Prop
    extends Evolves G s e s' e' where
  peaks : Peaks G s e → Peaks G s' e'

theorem Fine.fits (h : Fine G s e) : G.Fits (e.theory s) := by
  rintro l r (hl | hl)
  · exact h.equations.fits l r hl
  · exact h.rules.fits l r hl

theorem Fine.theory_eq (h : Fine G s e) (wf : s.WellFormed) (wf' : s'.WellFormed) (le : s ≤ s') :
    e.theory s' = e.theory s := by
  rw [theory, theory, h.equations.theory_eq wf wf' le, h.rules.theory_eq wf wf' le]

theorem Fine.mono (h : Fine G s e) (wf : s.WellFormed) (wf' : s'.WellFormed) (le : s ≤ s') :
    Fine G s' e where
  equations := h.equations.mono wf wf' le
  rules := h.rules.mono wf wf' le
  descends := (h.rules.theory_eq wf wf' le).symm ▸ h.descends
  distinct := h.distinct

theorem Fine.reducible (h : Fine G s e) : Reducible G s e.rules [] where
  hasRules := h.rules
  hasEquations := fun _ h => by cases h
  descends := h.descends

theorem Fine.reducibleActive (h : Fine G s e) : Reducible G s e.rules e.activeEquations where
  hasRules := h.rules
  hasEquations := by
    rw [activeEquations]
    split
    · exact h.equations
    · exact fun _ h => by cases h
  descends := h.descends

theorem Evolves.trans (h : Evolves G s e s' e') (h' : Evolves G s' e' s'' e'') (fine : Fine G s e) :
    Evolves G s e s'' e'' where
  fine := h'.fine
  sound := fun l r hl => (h'.sound l r hl).cut h.sound
  covers := h.covers.trans h'.covers fine.fits
  config := h'.config.trans h.config
  status := h'.status.trans h.status

theorem Advances.trans (h : Advances G s e s' e') (h' : Advances G s' e' s'' e'') (fine : Fine G s e) :
    Advances G s e s'' e'' where
  toEvolves := h.toEvolves.trans h'.toEvolves fine
  peaks := fun peaks => h'.peaks (h.peaks peaks)

/-- Equations and rules that are left alone say what they said. -/
theorem Beside.theory_eq (h : Beside e e') (fine : Fine G s e) (wf : s.WellFormed) (wf' : s'.WellFormed)
    (le : s ≤ s') : e'.theory s' = e.theory s := by
  rw [theory, h.equations, h.rules]
  exact fine.theory_eq wf wf' le

theorem Beside.evolves (h : Beside e e') (fine : Fine G s e) (wf : s.WellFormed) (wf' : s'.WellFormed)
    (le : s ≤ s') : Evolves G s e s' e' := by
  have same := h.theory_eq fine wf wf' le
  have fine' := fine.mono wf wf' le
  refine ⟨⟨?_, ?_, ?_, fun distinct => h.later.distinct (fine.distinct distinct)⟩, fun l r hl => ?_, ?_,
    h.config, h.status⟩
  · exact h.equations ▸ fine'.equations
  · exact h.rules ▸ fine'.rules
  · exact h.rules ▸ fine'.descends
  · exact .of_mem (same ▸ hl)
  · rw [same]
    exact .refl fine.fits

/-- Fewer rules, with nothing new seen, have no new overlaps. -/
theorem Evolves.advances (h : Evolves G s e s' e') (wf : s.WellFormed) (wf' : s'.WellFormed)
    (le : s ≤ s') (rules : e'.rules ⊆ e.rules) (seen : e'.seen = e.seen) : Advances G s e s' e' where
  toEvolves := h
  peaks := by
    intro peaks sharp d hd
    have before : Connected G s (e.theory s) d := by
      refine peaks sharp d (hd.imp (fun hd => ⟨rules hd.1, rules hd.2⟩) fun hd => ?_)
      rwa [seen] at hd
    exact (before.mono wf wf' le).cover h.covers

theorem Aside.advances (h : Aside e e') (fine : Fine G s e) (wf : s.WellFormed) (wf' : s'.WellFormed)
    (le : s ≤ s') : Advances G s e s' e' :=
  (h.toBeside.evolves fine wf wf' le).advances wf wf' le (h.rules ▸ fun _ h => h) h.seen

/-- The action advances the run or fails on the way. -/
abbrev Advancing (G : Gauge) (e : Engine) (s : Store) (x : EngineM α)
    (Q : α → Engine → Store → Prop) : Prop :=
  TermM.Ensures e s x (fun a e' s' => Advances G s e s' e' ∧ Q a e' s')
    fun e' s' => Evolves G s e s' e'

section
variable {β : Type} {x : EngineM α} {f : α → EngineM β} {P : α → Store → Prop}
variable {Q : α → Engine → Store → Prop} {R : β → Engine → Store → Prop}

theorem Advancing.bind (fine : Fine G s e) (hx : Advancing G e s x Q)
    (hf : ∀ a e' s', s'.WellFormed → s ≤ s' → Advances G s e s' e' → Q a e' s' →
      Advancing G e' s' (f a) R) : Advancing G e s (x >>= f) R := by
  refine TermM.Ensures.bind hx ?_
  rintro a e₁ s₁ wf₁ le₁ ⟨adv, ha⟩
  exact (hf a e₁ s₁ wf₁ le₁ adv ha).mono (fun _ _ _ _ _ h => ⟨adv.trans h.1 fine, h.2⟩)
    fun _ _ _ _ h => adv.toEvolves.trans h fine

/-- What leaves equations and rules alone advances a run. -/
theorem Leaves.advancing (wf : s.WellFormed) (fine : Fine G s e) (hx : Leaves e s x P) :
    Advancing G e s x fun a e' s' => Aside e e' ∧ P a s' :=
  TermM.Ensures.mono hx (fun _ _ _ wf' le' h => ⟨h.1.advances fine wf wf' le', h⟩)
    fun _ _ wf' le' h => h.toBeside.evolves fine wf wf' le'

theorem Advancing.pure {a : α} (wf : s.WellFormed) (fine : Fine G s e) (h : Q a e s) :
    Advancing G e s (Pure.pure a) Q :=
  TermM.Ensures.pure wf ⟨(Aside.refl e).advances fine wf wf (le_refl s), h⟩

theorem Advancing.modify {m : Engine → Engine} (wf : s.WellFormed) (h : Advances G s e s (m e)) :
    Advancing G e s (modify m) fun _ e' s' => e' = m e ∧ s' = s :=
  TermM.Ensures.modify wf ⟨h, rfl, rfl⟩

end

theorem subset_around {before after : List Equation} : before ++ after ⊆ before ++ eq :: after := by
  intro d hd
  rcases List.mem_append.1 hd with hd | hd
  · exact List.mem_append_left _ hd
  · exact List.mem_append_right _ (List.mem_cons_of_mem _ hd)

theorem mem_around {before after : List Equation} {d : Equation} (h : d ∈ before ++ eq :: after)
    (other : d ≠ eq) : d ∈ before ++ after := by
  rcases List.mem_append.1 h with h | h
  · exact List.mem_append_left _ h
  · exact List.mem_append_right _ ((List.mem_cons.1 h).resolve_left other)

theorem mem_remove {es : List Equation} {d : Equation} : d ∈ remove es eq ↔ d ∈ es ∧ d ≠ eq := by
  rw [remove, List.mem_filter, decide_eq_true_iff]

theorem mem_addFront {es : List Equation} {d : Equation} : d ∈ addFront es eq ↔ d = eq ∨ d ∈ es := by
  rw [addFront]
  split
  · rename_i old
    exact ⟨.inr, fun h => h.elim (fun same => same ▸ old) id⟩
  · rw [List.mem_cons]

theorem Follows.evolves (h : Superposition.Follows G s (e.theory s) eq) (wf : s.WellFormed)
    (wf' : s'.WellFormed) (le : s ≤ s') (ev : Evolves G s e s' e') :
    Superposition.Follows G s' (e'.theory s') eq := by
  obtain ⟨x, y, means, hx, hy, derives⟩ := h
  exact ⟨x, y, Equation.means_mono means wf wf' le, hx, hy,
    derives.cut fun l r hl => (ev.covers l r hl).derives⟩

theorem Fine.follows_rule (fine : Fine G s e) (h : rule ∈ e.rules) :
    Superposition.Follows G s (e.theory s) rule := by
  obtain ⟨l, r, means, hl, hr⟩ := fine.rules rule h
  exact ⟨l, r, means, hl, hr, .of_mem (.inr (Store.mem_theory h means))⟩

theorem Fine.follows_equation (fine : Fine G s e) (h : eq ∈ e.equations) :
    Superposition.Follows G s (e.theory s) eq := by
  obtain ⟨l, r, means, hl, hr⟩ := fine.equations eq h
  exact ⟨l, r, means, hl, hr, .of_mem (.inl (Store.mem_theory h means))⟩

/-- A worklist may be replaced by one that says the same. -/
theorem worklist_advances {es : List Equation} (wf : s.WellFormed) (fine : Fine G s e)
    (beside : Beside { e with equations := es } e') (seen : e'.seen = e.seen) (has : s.HasAll G.sig es)
    (sound : ∀ x y, (x, y) ∈ s.theory es → Derives (e.theory s) x y)
    (covers : G.Covers (s.theory e.equations) (s.theory es ∪ s.theory e.rules)) :
    Advances G s e s e' := by
  have same : e'.theory s = s.theory es ∪ s.theory e.rules := by
    rw [theory, beside.equations, beside.rules]
  have ev : Evolves G s e s e' := by
    refine ⟨⟨?_, ?_, ?_, fun distinct => beside.later.distinct (fine.distinct distinct)⟩, ?_, ?_,
      beside.config, beside.status⟩
    · rw [beside.equations]
      exact has
    · rw [beside.rules]
      exact fine.rules
    · rw [beside.rules]
      exact fine.descends
    · rw [same]
      rintro x y (hx | hx)
      · exact sound x y hx
      · exact .of_mem (.inr hx)
    · rw [same]
      rintro x y (hx | hx)
      · exact covers x y hx
      · obtain ⟨hx', hy'⟩ := fine.rules.fits x y hx
        exact .of_mem (.inr hx) hx' hy'
  exact ev.advances wf wf (le_refl s) (by rw [beside.rules]; exact fun _ h => h) seen

/-- The worklist may be put in another order. -/
theorem reorder_advances {es : List Equation} (wf : s.WellFormed) (fine : Fine G s e)
    (beside : Beside { e with equations := es } e') (seen : e'.seen = e.seen)
    (mem : ∀ d, d ∈ es ↔ d ∈ e.equations) : Advances G s e s e' := by
  have fewer : es ⊆ e.equations := fun d hd => (mem d).1 hd
  refine worklist_advances wf fine beside seen (fine.equations.of_subset fewer) ?_ ?_
  · exact fun x y hx => .of_mem (.inl (Store.theory_mono fewer hx))
  · exact .of_subset fine.equations.fits fun d hd =>
      .inl (Store.theory_mono (fun d hd => (mem d).2 hd) hd)

end OrderedCompletion.Engine
