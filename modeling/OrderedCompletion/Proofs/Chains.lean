import Mathlib.Logic.Relation
import OrderedCompletion.Proofs.Runs
import OrderedCompletion.Proofs.Triangular

/-! Bindings by which no variable reaches itself come to a substitution that need only be applied once. -/

namespace OrderedCompletion.Store

variable {s s' : Store} {σ : Subst} {θ : Var → Term} {r : Ref} {v w : Var} {rank : Var → Nat}

/-- No variable reaches itself through bindings. That it is bound to itself does not count. -/
def Acyclic (s : Store) (σ : Subst) : Prop := ∀ v, ¬ Relation.TransGen (s.Leads σ) v v

theorem acyclic_of_ranked (ranked : ∀ v w, s.Leads σ v w → rank w < rank v) : s.Acyclic σ := by
  have lower : ∀ {v w}, Relation.TransGen (s.Leads σ) v w → rank w < rank v := by
    intro v w chain
    induction chain with
    | single leads => exact ranked _ _ leads
    | tail _ leads ih => exact (ranked _ _ leads).trans ih
  exact fun v chain => Nat.lt_irrefl _ (lower chain)

open Classical in
/-- The bound variables that a variable reaches, itself among them. -/
noncomputable def reached (s : Store) (σ : Subst) (v : Var) : Finset Var :=
  σ.support.filter (Relation.ReflTransGen (s.Leads σ) v)

theorem mem_reached : w ∈ s.reached σ v ↔ w ∈ σ.support ∧ Relation.ReflTransGen (s.Leads σ) v w := by
  simp only [reached, Finset.mem_filter]

/-- Every binding leads to a variable that reaches fewer bound ones. -/
theorem Acyclic.card_reached_lt (acyclic : s.Acyclic σ) (leads : s.Leads σ v w) :
    (s.reached σ w).card < (s.reached σ v).card := by
  obtain ⟨q, hq, -⟩ := id leads
  refine Finset.card_lt_card ⟨fun x hx => ?_, fun sub => ?_⟩
  · obtain ⟨bound, chain⟩ := mem_reached.1 hx
    exact mem_reached.2 ⟨bound, .head leads chain⟩
  · have self : v ∈ s.reached σ v := mem_reached.2 ⟨Subst.mem_support.2 ⟨q, hq⟩, .refl⟩
    exact acyclic v (.head' leads (mem_reached.1 (sub self)).2)

/-- The image of a variable after bindings were followed so many times. -/
def imageAfter (s : Store) (σ : Subst) : Nat → Var → Term
  | 0, v => .var v
  | n + 1, v => (s.image σ v).subst (s.imageAfter σ n)

theorem Rests.imageAfter_eq (rests : s.Rests σ v) (n : Nat) : s.imageAfter σ n v = .var v := by
  induction n with
  | zero => rfl
  | succ n ih => rw [imageAfter, image_eq_var_iff.2 rests, Term.subst_var, ih]

/-- It stays the same once the chains have come to their ends. -/
theorem imageAfter_stable (ranked : ∀ v w, s.Leads σ v w → rank w < rank v) {n m : Nat} (hn : rank v < n)
    (hm : rank v < m) : s.imageAfter σ n v = s.imageAfter σ m v := by
  induction n generalizing v m with
  | zero => exact absurd hn (Nat.not_lt_zero _)
  | succ n ih =>
      obtain ⟨m, rfl⟩ := Nat.exists_eq_succ_of_ne_zero (Nat.ne_zero_of_lt hm)
      by_cases rests : s.Rests σ v
      · rw [rests.imageAfter_eq, rests.imageAfter_eq]
      · simp only [Rests, not_forall] at rests
        obtain ⟨q, hq, other⟩ := rests
        rw [imageAfter, imageAfter, image_bound hq]
        refine Term.subst_congr fun w hw => ?_
        have lower := ranked v w ⟨q, hq, other, hw⟩
        exact ih (Nat.lt_of_lt_of_le lower (Nat.le_of_lt_succ hn)) (Nat.lt_of_lt_of_le lower (Nat.le_of_lt_succ hm))

/-- There are images that the chains lead to. -/
theorem Acyclic.exists_chains (acyclic : s.Acyclic σ) (known : s.Knows σ) : ∃ θ, s.Chains σ θ := by
  let rank v := (s.reached σ v).card
  have ranked : ∀ v w, s.Leads σ v w → rank w < rank v := fun _ _ leads => acyclic.card_reached_lt leads
  refine ⟨fun v => s.imageAfter σ (rank v + 1) v, known, fun v q hq => ?_, fun v rests => ?_, rank, ranked⟩
  · by_cases self : s.term q = .var v
    · rw [self, Term.subst_var]
    · rw [imageAfter, image_bound hq]
      exact Term.subst_congr fun w hw =>
        imageAfter_stable ranked (ranked v w ⟨q, hq, self, hw⟩) (Nat.lt_succ_self _)
  · exact rests.imageAfter_eq _

/-- No bound variable occurs in what variables are bound to. -/
def Idempotent (s : Store) (σ : Subst) : Prop :=
  ∀ v q, σ.find? v = some q → q < s.size ∧ ∀ w ∈ (s.term q).vars, σ.find? w = none

/-- If no variable reaches itself through bindings, the loop that follows them comes to an end for every term
and for all bindings in turn. What it makes of the bindings is idempotent and does to every term at once what
the loop does. -/
theorem resolve_acyclic (wf : s.WellFormed) (known : s.Knows σ) (acyclic : s.Acyclic σ) :
    (∀ r < s.size, Chases σ s r (applyDeep σ r s).1 (applyDeep σ r s).2) ∧
    (∃ ends, ChasesAll σ s σ.walk ends (resolve σ s).2) ∧
    (resolve σ s).2.Idempotent (resolve σ s).1 ∧
    ∀ s', s'.WellFormed → (resolve σ s).2 ≤ s' → ∀ r < s'.size,
      (applyDeep σ r (apply (resolve σ s).1 r s').2).1 = (apply (resolve σ s).1 r s').1 := by
  obtain ⟨θ, chains⟩ := acyclic.exists_chains known
  obtain ⟨wf₁, le₁, binds, -, dropped, ends, chased, -⟩ := resolve_spec wf chains
  refine ⟨fun r hr => (applyDeep_spec wf chains (denotes_term hr)).2.2.2, ⟨ends, chased⟩, fun v q hq => ?_, ?_⟩
  · obtain ⟨hq, image⟩ := binds.bound v q hq
    refine ⟨hq, fun w hw => dropped w (chains.rests w ?_)⟩
    rw [image] at hw
    exact chains.ends hw
  · intro s' wf' le' r hr
    obtain ⟨wf₂, le₂, once⟩ := apply_spec wf' (binds.mono wf₁ wf' le') (denotes_term hr)
    have later := le₁.trans (le'.trans le₂)
    obtain ⟨wf₃, le₃, deep, -⟩ := applyDeep_spec wf₂ (chains.mono wf wf₂ later)
      ((denotes_term hr).mono wf' wf₂ le₂)
    exact deep.inj (once.mono wf₂ wf₃ le₃) wf₃

/-- Terms for a binding that leads to another one, and for one of a variable to itself. -/
def chaining : List Equation × Store :=
  Equation.listOfTerms [(.app (.symbol ⟨0⟩) [.var 1, .var 3], .var 2), (.var 3, .app (.symbol ⟨1⟩) [.var 0])] .empty

theorem chaining_wellFormed : chaining.2.WellFormed := by
  rw [chaining]
  apply wellFormed_listOfTerms
  simp [Term.over_app_iff, Signature.full, Term.Over.var]

theorem resolve_acyclic_chaining :
    ∃ σ : Subst, chaining.2.Knows σ ∧ chaining.2.Acyclic σ ∧
      Chases σ chaining.2 5 (applyDeep σ 5 chaining.2).1 (applyDeep σ 5 chaining.2).2 ∧
      (∃ ends, ChasesAll σ chaining.2 σ.walk ends (resolve σ chaining.2).2) ∧
      (resolve σ chaining.2).2.Idempotent (resolve σ chaining.2).1 ∧
      (applyDeep σ 5 (apply (resolve σ chaining.2).1 5 (resolve σ chaining.2).2).2).1 =
        (apply (resolve σ chaining.2).1 5 (resolve σ chaining.2).2).1 := by
  let σ : Subst := .ofList [(0, 2), (1, 3), (3, 1)]
  have binding : ∀ {v q}, σ.find? v = some q → v = 0 ∧ q = 2 ∨ v = 1 ∧ q = 3 ∨ v = 3 ∧ q = 1 := by
    intro v q hq
    simpa using Subst.find?_ofList.1 q hq
  have known : chaining.2.Knows σ := by
    intro v q hq
    rcases binding hq with ⟨-, rfl⟩ | ⟨-, rfl⟩ | ⟨-, rfl⟩ <;> decide +kernel
  have terms : chaining.2.term 2 = .app (.symbol ⟨0⟩) [.var 1, .var 3] ∧ chaining.2.term 3 = .var 2 ∧
      chaining.2.term 1 = .var 3 := by decide +kernel
  let rank : Var → Nat := fun v => if v = 0 then 2 else if v = 1 then 1 else 0
  have ranked : ∀ v w, chaining.2.Leads σ v w → rank w < rank v := by
    rintro v w ⟨q, hq, other, hw⟩
    rcases binding hq with ⟨rfl, rfl⟩ | ⟨rfl, rfl⟩ | ⟨rfl, rfl⟩
    · rw [terms.1] at hw
      have here : w = 1 ∨ w = 3 := by simpa using hw
      rcases here with rfl | rfl <;> decide
    · rw [terms.2.1, Term.mem_vars_var] at hw
      subst hw
      decide
    · exact absurd terms.2.2 other
  have acyclic : chaining.2.Acyclic σ := acyclic_of_ranked ranked
  have wf := chaining_wellFormed
  obtain ⟨deep, ends, idempotent, once⟩ := resolve_acyclic wf known acyclic
  have stored : 5 < (resolve σ chaining.2).2.size := by decide +kernel
  have wf' : (resolve σ chaining.2).2.WellFormed := by
    obtain ⟨θ, chains⟩ := acyclic.exists_chains known
    exact (resolve_spec wf chains).1
  exact ⟨σ, known, acyclic, deep 5 (by decide +kernel), ends, idempotent, once _ wf' le_rfl 5 stored⟩

end OrderedCompletion.Store
