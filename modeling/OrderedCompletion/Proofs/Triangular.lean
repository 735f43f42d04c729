import Mathlib.Data.Finset.Card
import Mathlib.Data.Finset.Image
import Mathlib.Data.List.Dedup
import OrderedCompletion.Proofs.Matching
import OrderedCompletion.Proofs.Slots

/-! Substitutions whose bindings form chains without cycles, and their resolution. -/

namespace OrderedCompletion

namespace Subst

variable {σ : Subst} {v w : Var} {q : Ref}

/-- The bound variables. -/
def support (σ : Subst) : Finset Var := (σ.bindings.map (·.1)).toFinset

theorem mem_support : v ∈ σ.support ↔ ∃ q, σ.find? v = some q := by
  obtain ⟨bindings⟩ := σ
  rw [support, List.mem_toFinset]
  induction bindings with
  | nil => simp [find?]
  | cons binding bindings ih =>
      obtain ⟨w, r⟩ := binding
      have unfold : (Subst.mk ((w, r) :: bindings)).find? v = if v = w then some r else find? ⟨bindings⟩ v :=
        find?_bind ⟨bindings⟩ w v r
      rw [unfold, List.map_cons, List.mem_cons, ih]
      by_cases same : v = w
      · simp [same]
      · simp [same]

theorem card_support_le : σ.support.card ≤ σ.bindings.length := by
  rw [support]
  exact (List.toFinset_card_le _).trans (Nat.le_of_eq (List.length_map _))

/-- The number of bound variables of smaller rank. -/
def height (σ : Subst) (rank : Var → Nat) (v : Var) : Nat :=
  (σ.support.filter fun w => rank w < rank v).card

variable {rank : Var → Nat}

theorem height_lt_card (h : σ.find? v = some q) : σ.height rank v < σ.support.card := by
  refine Finset.card_lt_card ((Finset.filter_ssubset).2 ⟨v, mem_support.2 ⟨q, h⟩, ?_⟩)
  exact Nat.lt_irrefl _

theorem height_lt_height (h : σ.find? w = some q) (lt : rank w < rank v) :
    σ.height rank w < σ.height rank v := by
  refine Finset.card_lt_card ⟨fun x hx => ?_, fun sub => ?_⟩
  · rw [Finset.mem_filter] at hx ⊢
    exact ⟨hx.1, Nat.lt_trans hx.2 lt⟩
  · have here := sub (Finset.mem_filter.2 ⟨mem_support.2 ⟨q, h⟩, lt⟩)
    exact Nat.lt_irrefl _ (Finset.mem_filter.1 here).2

theorem find?_ofList {l : List (Var × Ref)} :
    (∀ q, (ofList l).find? v = some q → (v, q) ∈ l) ∧
      ((ofList l).find? v = none → ∀ q, (v, q) ∉ l) := by
  suffices gen : ∀ σ : Subst,
      (∀ q, (l.foldl (fun σ b => σ.bind b.1 b.2) σ).find? v = some q → (v, q) ∈ l ∨ σ.find? v = some q) ∧
      ((l.foldl (fun σ b => σ.bind b.1 b.2) σ).find? v = none → σ.find? v = none ∧ ∀ q, (v, q) ∉ l) by
    refine ⟨fun q hq => ?_, fun h => ((gen empty).2 h).2⟩
    rcases (gen empty).1 q hq with h | h
    · exact h
    · cases h
  induction l with
  | nil => simp
  | cons binding l ih =>
      obtain ⟨w, r⟩ := binding
      intro σ
      obtain ⟨found, missing⟩ := ih (σ.bind w r)
      rw [List.foldl_cons]
      refine ⟨fun q hq => ?_, fun h => ?_⟩
      · rcases found q hq with h | h
        · exact .inl (List.mem_cons_of_mem _ h)
        · rw [find?_bind] at h
          split at h
          · rename_i same
            cases h
            rw [same]
            exact .inl List.mem_cons_self
          · exact .inr h
      · obtain ⟨free, none⟩ := missing h
        rw [find?_bind] at free
        split at free
        · cases free
        · rename_i other
          refine ⟨free, fun q hq => ?_⟩
          rcases List.mem_cons.1 hq with same | later
          · exact other (congrArg Prod.fst same)
          · exact none q later

theorem mem_walk : (v, q) ∈ σ.walk ↔ σ.find? v = some q := by
  simp only [walk, bindingsOf, List.mem_filterMap, Option.map_eq_some_iff, Prod.mk.injEq]
  constructor
  · rintro ⟨w, -, r, hr, rfl, rfl⟩
    exact hr
  · intro h
    refine ⟨v, Slots.mem_walk.2 ?_, q, h, rfl, rfl⟩
    have bound := mem_support.2 ⟨q, h⟩
    rw [support, List.mem_toFinset] at bound
    simpa using bound

end Subst

namespace Store

variable {s s' : Store} {σ : Subst} {θ τ : Var → Term} {r q : Ref} {t : Term} {v w : Var}

/-- Every bound variable has the image of what it is bound to. -/
def Solves (s : Store) (σ : Subst) (τ : Var → Term) : Prop :=
  ∀ v q, σ.find? v = some q → τ v = (s.term q).subst τ

/-- No chain of bindings comes back to its start. -/
def Ranked (s : Store) (σ : Subst) (rank : Var → Nat) : Prop :=
  ∀ v q, σ.find? v = some q → ∀ w ∈ (s.term q).vars, rank w < rank v

/-- The images are those that the chains of bindings lead to. -/
structure Resolves (s : Store) (σ : Subst) (θ : Var → Term) : Prop where
  known : s.Knows σ
  solves : s.Solves σ θ
  free : ∀ v, σ.find? v = none → θ v = .var v
  ranked : ∃ rank, s.Ranked σ rank
  /-- No variable is bound to a greater one. -/
  sinks : ∀ v q, σ.find? v = some q → ∀ w, s.term q = .var w → w ≤ v

theorem Solves.bind_iff (free : σ.find? v = none) :
    s.Solves (σ.bind v q) τ ↔ s.Solves σ τ ∧ τ v = (s.term q).subst τ := by
  constructor
  · intro h
    refine ⟨fun w p hw => h w p ?_, h v q (by rw [Subst.find?_bind, if_pos rfl])⟩
    rw [Subst.find?_bind, if_neg, hw]
    rintro rfl
    rw [free] at hw
    cases hw
  · rintro ⟨h, hv⟩ w p hw
    rw [Subst.find?_bind] at hw
    split at hw
    · rename_i same
      cases hw
      rw [same]
      exact hv
    · exact h w p hw

theorem resolves_empty : s.Resolves .empty .var where
  known := fun v q hv => by cases hv
  solves := fun v q hv => by cases hv
  free := fun _ _ => rfl
  ranked := ⟨fun _ => 0, fun v q hv => by cases hv⟩
  sinks := fun v q hv => by cases hv

/-- What the chains lead to is most general among what respects the bindings. -/
theorem Resolves.general (h : s.Resolves σ θ) (hτ : s.Solves σ τ) (v : Var) :
    (θ v).subst τ = τ v := by
  obtain ⟨rank, ranked⟩ := h.ranked
  induction hn : rank v using Nat.strongRecOn generalizing v with
  | ind n ih =>
      cases hv : σ.find? v with
      | none => rw [h.free v hv, Term.subst_var]
      | some q =>
          rw [h.solves v q hv, Term.subst_subst, hτ v q hv]
          exact Term.subst_congr fun w hw => ih (rank w) (hn ▸ ranked v q hv w hw) w rfl

theorem Resolves.inSig {sig : Signature} (h : s.Resolves σ θ)
    (bound : ∀ v q, σ.find? v = some q → (s.term q).Over sig) (v : Var) : (θ v).Over sig := by
  obtain ⟨rank, ranked⟩ := h.ranked
  induction hn : rank v using Nat.strongRecOn generalizing v with
  | ind n ih =>
      cases hv : σ.find? v with
      | none =>
          rw [h.free v hv]
          exact .var v
      | some q =>
          rw [h.solves v q hv]
          refine (bound v q hv).subst fun w hw => ?_
          exact ih (rank w) (hn ▸ ranked v q hv w hw) w rfl

/-- The chains from a variable lead only to what the bindings on the way lead to. -/
theorem Resolves.vars_inside {P : Var → Prop} (h : s.Resolves σ θ)
    (inside : ∀ v q, σ.find? v = some q → ∀ w ∈ (s.term q).vars, P w) (hv : P v) :
    ∀ w ∈ (θ v).vars, P w := by
  obtain ⟨rank, ranked⟩ := h.ranked
  induction hn : rank v using Nat.strongRecOn generalizing v with
  | ind n ih =>
      intro w hw
      cases hb : σ.find? v with
      | none =>
          rw [h.free v hb, Term.mem_vars_var] at hw
          exact hw ▸ hv
      | some q =>
          rw [h.solves v q hb] at hw
          obtain ⟨x, hx, hwx⟩ := Term.mem_vars_subst.1 hw
          exact ih (rank x) (hn ▸ ranked v q hb x hx) (inside v q hb x hx) rfl w hwx

theorem exists_greater (rank : Var → Nat) (vs : List Var) : ∃ k, ∀ v ∈ vs, rank v < k := by
  induction vs with
  | nil => exact ⟨0, by simp⟩
  | cons v vs ih =>
      obtain ⟨k, hk⟩ := ih
      refine ⟨max k (rank v + 1), fun w hw => ?_⟩
      rcases List.mem_cons.1 hw with rfl | later
      · omega
      · have := hk w later
        omega

/-- What leads to the new variable is lifted above everything that the new binding leads to. -/
theorem Resolves.exists_ranked_bind (h : s.Resolves σ θ) (free : σ.find? v = none)
    (apart : v ∉ ((s.term q).subst θ).vars) : ∃ rank, s.Ranked (σ.bind v q) rank := by
  obtain ⟨rank, ranked⟩ := h.ranked
  obtain ⟨k, hk⟩ := exists_greater rank (s.term q).vars
  refine ⟨fun w => if v ∈ (θ w).vars then rank w + k else rank w, fun w p hw x hx => ?_⟩
  rw [Subst.find?_bind] at hw
  dsimp only
  split at hw
  · rename_i same
    cases hw
    have self : v ∈ (θ w).vars := by rw [same, h.free v free, Term.mem_vars_var]
    have low : v ∉ (θ x).vars := fun hv => apart (Term.mem_vars_subst.2 ⟨x, hx, hv⟩)
    rw [if_pos self, if_neg low]
    exact Nat.lt_of_lt_of_le (hk x hx) (Nat.le_add_left k _)
  · have lt := ranked w p hw x hx
    by_cases hv : v ∈ (θ x).vars
    · have up : v ∈ (θ w).vars := by
        rw [h.solves w p hw]
        exact Term.mem_vars_subst.2 ⟨x, hx, hv⟩
      rw [if_pos hv, if_pos up]
      omega
    · rw [if_neg hv]
      split <;> omega

/-- One more variable may be bound to a term that does not lead back to it. -/
theorem Resolves.bind (h : s.Resolves σ θ) (free : σ.find? v = none) (hq : q < s.size)
    (apart : v ∉ ((s.term q).subst θ).vars) (low : ∀ w, s.term q = .var w → w ≤ v) :
    s.Resolves (σ.bind v q) fun w =>
      (θ w).subst fun x => if x = v then (s.term q).subst θ else .var x where
  known := h.known.bind hq
  solves := by
    have image : ∀ t : Term, (t.subst θ).subst (fun x => if x = v then (s.term q).subst θ else .var x) =
        t.subst fun w => (θ w).subst fun x => if x = v then (s.term q).subst θ else .var x :=
      fun t => Term.subst_subst
    refine (Solves.bind_iff free).2 ⟨fun w p hw => ?_, ?_⟩
    · rw [← image, ← h.solves w p hw]
    · rw [← image, h.free v free, Term.subst_var, if_pos rfl]
      refine (Term.subst_eq_self fun x hx => if_neg ?_).symm
      rintro rfl
      exact apart hx
  free := by
    intro w hw
    rw [Subst.find?_bind] at hw
    split at hw
    · cases hw
    · rename_i other
      rw [h.free w hw, Term.subst_var, if_neg other]
  ranked := h.exists_ranked_bind free apart
  sinks := by
    intro w p hw x hx
    rw [Subst.find?_bind] at hw
    split at hw
    · rename_i same
      cases hw
      exact same ▸ low x hx
    · exact h.sinks w p hw x hx

/-- What respects the bindings goes on to do so in later stores. -/
theorem Solves.mono (h : s.Solves σ τ) (known : s.Knows σ) (wf : s.WellFormed) (wf' : s'.WellFormed)
    (le : s ≤ s') : s'.Solves σ τ := by
  intro v q hv
  rw [wf.below.term_of_le wf'.below le (known v q hv)]
  exact h v q hv

theorem Resolves.mono (h : s.Resolves σ θ) (wf : s.WellFormed) (wf' : s'.WellFormed) (le : s ≤ s') :
    s'.Resolves σ θ where
  known := fun v q hv => Nat.lt_of_lt_of_le (h.known v q hv) (size_le_of_le le)
  solves := h.solves.mono h.known wf wf' le
  free := h.free
  ranked := by
    obtain ⟨rank, ranked⟩ := h.ranked
    refine ⟨rank, fun v q hv w hw => ranked v q hv w ?_⟩
    rwa [wf.below.term_of_le wf'.below le (h.known v q hv)] at hw
  sinks := by
    intro v q hv w hw
    rw [wf.below.term_of_le wf'.below le (h.known v q hv)] at hw
    exact h.sinks v q hv w hw

/-- The variable is bound to nothing but itself. -/
def Rests (s : Store) (σ : Subst) (v : Var) : Prop := ∀ q, σ.find? v = some q → s.term q = .var v

/-- A binding leads from its variable to those of the term, unless it binds the variable to itself. -/
def Leads (s : Store) (σ : Subst) (v w : Var) : Prop :=
  ∃ q, σ.find? v = some q ∧ s.term q ≠ .var v ∧ w ∈ (s.term q).vars

/-- The images are those that the chains of bindings lead to, where variables may be bound to themselves. -/
structure Chains (s : Store) (σ : Subst) (θ : Var → Term) : Prop where
  known : s.Knows σ
  solves : s.Solves σ θ
  rests : ∀ v, s.Rests σ v → θ v = .var v
  ranked : ∃ rank : Var → Nat, ∀ v w, s.Leads σ v w → rank w < rank v

/-- The runs of a loop that applies a substitution until nothing changes. -/
inductive Chases (σ : Subst) : Store → Ref → Ref → Store → Prop
  | rest {s s' : Store} {r : Ref} : apply σ r s = (r, s') → Chases σ s r r s'
  | move {s s₁ s' : Store} {r q out : Ref} : apply σ r s = (q, s₁) → q ≠ r → Chases σ s₁ q out s' →
      Chases σ s r out s'

theorem rests_of_free (h : σ.find? v = none) : s.Rests σ v := by
  intro q hq
  rw [h] at hq
  cases hq

theorem image_eq_var_iff : s.image σ v = .var v ↔ s.Rests σ v := by
  constructor
  · intro self q hq
    rwa [image_bound hq] at self
  · intro rests
    cases hv : σ.find? v with
    | none => exact image_free hv
    | some q => exact (image_bound hv).trans (rests q hv)

/-- Only a term with variables that all rest stays as it is. -/
theorem subst_image_eq_iff : t.subst (s.image σ) = t ↔ ∀ v ∈ t.vars, s.Rests σ v := by
  constructor
  · intro same v hv
    exact image_eq_var_iff.1 (Term.eq_of_subst_eq (same.trans Term.subst_self.symm) v hv)
  · exact fun rest => Term.subst_eq_self fun v hv => image_eq_var_iff.2 (rest v hv)

theorem Resolves.free_of_rests (h : s.Resolves σ θ) (rests : s.Rests σ v) : σ.find? v = none := by
  obtain ⟨rank, ranked⟩ := h.ranked
  cases hv : σ.find? v with
  | none => rfl
  | some q =>
      refine absurd (ranked v q hv v ?_) (Nat.lt_irrefl _)
      rw [rests q hv, Term.mem_vars_var]

theorem Resolves.chains (h : s.Resolves σ θ) : s.Chains σ θ where
  known := h.known
  solves := h.solves
  rests := fun v rests => h.free v (h.free_of_rests rests)
  ranked := by
    obtain ⟨rank, ranked⟩ := h.ranked
    refine ⟨rank, ?_⟩
    rintro v w ⟨q, hq, -, hw⟩
    exact ranked v q hq w hw

section
variable (known : s.Knows σ) (wf : s.WellFormed) (wf' : s'.WellFormed) (le : s ≤ s')
include known wf wf' le

theorem rests_later : s'.Rests σ v ↔ s.Rests σ v := by
  refine forall_congr' fun q => forall_congr' fun hq => ?_
  rw [wf.below.term_of_le wf'.below le (known v q hq)]

theorem leads_later : s'.Leads σ v w ↔ s.Leads σ v w := by
  refine exists_congr fun q => and_congr_right fun hq => ?_
  rw [wf.below.term_of_le wf'.below le (known v q hq)]

end

theorem Chains.mono (h : s.Chains σ θ) (wf : s.WellFormed) (wf' : s'.WellFormed) (le : s ≤ s') :
    s'.Chains σ θ where
  known := fun v q hv => Nat.lt_of_lt_of_le (h.known v q hv) (size_le_of_le le)
  solves := h.solves.mono h.known wf wf' le
  rests := fun v rests => h.rests v ((rests_later h.known wf wf' le).1 rests)
  ranked := by
    obtain ⟨rank, ranked⟩ := h.ranked
    exact ⟨rank, fun v w leads => ranked v w ((leads_later h.known wf wf' le).1 leads)⟩

/-- To replace variables first does not change what the chains lead to. -/
theorem Chains.subst_image (h : s.Chains σ θ) (t : Term) : (t.subst (s.image σ)).subst θ = t.subst θ := by
  rw [Term.subst_subst]
  refine Term.subst_congr fun v _ => ?_
  cases hv : σ.find? v with
  | none => rw [image_free hv, Term.subst_var]
  | some q => rw [image_bound hv, h.solves v q hv]

/-- All variables rest where the chains end. -/
theorem Chains.ends (h : s.Chains σ θ) (hw : w ∈ (θ v).vars) : s.Rests σ w := by
  obtain ⟨rank, ranked⟩ := h.ranked
  induction hn : rank v using Nat.strongRecOn generalizing v with
  | ind n ih =>
      by_cases rests : s.Rests σ v
      · rw [h.rests v rests, Term.mem_vars_var] at hw
        exact hw ▸ rests
      · simp only [Rests, not_forall] at rests
        obtain ⟨q, hq, other⟩ := rests
        rw [h.solves v q hq] at hw
        obtain ⟨x, hx, hwx⟩ := Term.mem_vars_subst.1 hw
        exact ih (rank x) (hn ▸ ranked v x ⟨q, hq, other, hx⟩) hwx rfl

/-- No bound variable is left where the chains end. -/
theorem Resolves.idempotent (h : s.Resolves σ θ) (hw : w ∈ (θ v).vars) : σ.find? w = none :=
  h.free_of_rests (h.chains.ends hw)

/-- With every round the variables that do not rest have fewer bound ones below them. -/
theorem applyUpTo_spec {n : Nat} {rank : Var → Nat} (wf : s.WellFormed) (h : s.Chains σ θ)
    (ranked : ∀ v w, s.Leads σ v w → rank w < rank v) (hd : s.Denotes r t)
    (hn : ∀ v ∈ t.vars, ¬ s.Rests σ v → σ.height rank v < n) :
    s.Ensures (applyUpTo σ (n + 1) r) fun out s' => s'.Denotes out (t.subst θ) ∧ Chases σ s r out s' := by
  induction n generalizing s r t with
  | zero =>
      have rest : t.subst (s.image σ) = t :=
        subst_image_eq_iff.2 fun v hv => by_contra fun moves => absurd (hn v hv moves) (Nat.not_lt_zero _)
      have once : s.Ensures (apply σ r) fun out s₁ => out = r ∧ s₁.Denotes r t ∧ apply σ r s = (r, s₁) := by
        obtain ⟨wf₁, le₁, hout⟩ := apply_spec wf h.known.binds hd
        rw [rest] at hout
        have hr := hd.mono wf wf₁ le₁
        have same := hout.inj hr wf₁
        exact ⟨wf₁, le₁, same, hr, Prod.ext same rfl⟩
      rw [applyUpTo]
      refine once.bind ?_
      rintro _ s₁ wf₁ - ⟨rfl, hout, ran⟩
      rw [if_pos rfl]
      refine .pure wf₁ ⟨?_, .rest ran⟩
      rwa [← h.subst_image, rest, Term.subst_eq_self fun v hv => h.rests v (subst_image_eq_iff.1 rest v hv)]
  | succ n ih =>
      have once : s.Ensures (apply σ r) fun out s₁ =>
          s₁.Denotes out (t.subst (s.image σ)) ∧ apply σ r s = (out, s₁) := by
        obtain ⟨wf₁, le₁, hout⟩ := apply_spec wf h.known.binds hd
        exact ⟨wf₁, le₁, hout, rfl⟩
      rw [applyUpTo]
      refine once.bind ?_
      rintro out s₁ wf₁ le₁ ⟨hout, ran⟩
      split
      · rename_i same
        subst same
        have rest := (hout.eq_iff (hd.mono wf wf₁ le₁) wf₁).1 rfl
        refine .pure wf₁ ⟨?_, .rest ran⟩
        rw [Term.subst_eq_self fun v hv => h.rests v (subst_image_eq_iff.1 rest v hv)]
        exact rest ▸ hout
      · rename_i moved
        have later : ∀ v w, s₁.Leads σ v w → rank w < rank v :=
          fun v w leads => ranked v w ((leads_later h.known wf wf₁ le₁).1 leads)
        refine (ih wf₁ (h.mono wf wf₁ le₁) later hout fun v hv moves => ?_).mono ?_
        · rw [rests_later h.known wf wf₁ le₁] at moves
          obtain ⟨x, hx, hvx⟩ := Term.mem_vars_subst.1 hv
          by_cases rests : s.Rests σ x
          · rw [image_eq_var_iff.2 rests, Term.mem_vars_var] at hvx
            exact absurd (hvx ▸ rests) moves
          · have bound := rests
            simp only [Rests, not_forall] at bound moves
            obtain ⟨q, hq, -⟩ := moves
            obtain ⟨p, hp, other⟩ := bound
            rw [image_bound hp] at hvx
            have lower := Subst.height_lt_height hq (ranked x v ⟨p, hp, other, hvx⟩)
            exact Nat.lt_of_lt_of_le lower (Nat.le_of_lt_succ (hn x hx rests))
        · rintro last s₂ - - ⟨hlast, chases⟩
          rw [h.subst_image] at hlast
          exact ⟨hlast, .move ran moved chases⟩

theorem applyDeep_spec (wf : s.WellFormed) (h : s.Chains σ θ) (hd : s.Denotes r t) :
    s.Ensures (applyDeep σ r) fun out s' => s'.Denotes out (t.subst θ) ∧ Chases σ s r out s' := by
  obtain ⟨rank, ranked⟩ := h.ranked
  refine applyUpTo_spec wf h ranked hd fun v _ moves => ?_
  simp only [Rests, not_forall] at moves
  obtain ⟨q, hq, -⟩ := moves
  exact Nat.lt_of_lt_of_le (Subst.height_lt_card hq) Subst.card_support_le

/-- The runs of the loop for one binding after the other. -/
inductive ChasesAll (σ : Subst) : Store → List (Var × Ref) → List (Var × Ref) → Store → Prop
  | nil {s : Store} : ChasesAll σ s [] [] s
  | cons {s s₁ s' : Store} {v : Var} {r out : Ref} {bs outs : List (Var × Ref)} : Chases σ s r out s₁ →
      ChasesAll σ s₁ bs outs s' → ChasesAll σ s ((v, r) :: bs) ((v, out) :: outs) s'

theorem applyAll_spec {bs : List (Var × Ref)} (wf : s.WellFormed) (h : s.Chains σ θ)
    (bound : ∀ b ∈ bs, σ.find? b.1 = some b.2) :
    s.Ensures (bs.mapM fun b => return (b.1, ← applyDeep σ b.2)) fun outs s' =>
      ChasesAll σ s bs outs s' ∧ List.Forall₂ (fun b out => out.1 = b.1 ∧ s'.Denotes out.2 (θ b.1)) bs outs := by
  induction bs generalizing s with
  | nil => exact .pure wf ⟨.nil, .nil⟩
  | cons b bs ih =>
      obtain ⟨v, r⟩ := b
      have here := bound (v, r) List.mem_cons_self
      have first : s.Ensures (do return (v, ← applyDeep σ r)) fun out s₁ =>
          ∃ q, out = (v, q) ∧ s₁.Denotes q (θ v) ∧ Chases σ s r q s₁ := by
        rw [h.solves v r here]
        exact (applyDeep_spec wf h (denotes_term (h.known v r here))).bind fun q _ wf₁ _ hq =>
          .pure wf₁ ⟨q, rfl, hq⟩
      rw [List.mapM_cons]
      refine first.bind ?_
      rintro _ s₁ wf₁ le₁ ⟨q, rfl, hq, chases⟩
      refine (ih wf₁ (h.mono wf wf₁ le₁) fun b hb => bound b (List.mem_cons_of_mem _ hb)).bind ?_
      rintro outs s₂ wf₂ le₂ ⟨chasesAll, houts⟩
      exact .pure wf₂ ⟨.cons chases chasesAll, .cons ⟨rfl, hq.mono wf₁ wf₂ le₂⟩ houts⟩

/-- What is left after the chains are followed to their ends, variable by variable. -/
theorem resolve_spec (wf : s.WellFormed) (h : s.Chains σ θ) :
    s.Ensures (resolve σ) fun σ' s' => s'.Binds σ' θ ∧ (∀ v, σ.find? v = none → σ'.find? v = none) ∧
      (∀ v, θ v = .var v → σ'.find? v = none) ∧ ∃ ends, ChasesAll σ s σ.walk ends s' ∧
        σ' = .ofList (ends.filter fun b => s'.node? b.2 ≠ some (.var b.1)) := by
  rw [resolve]
  refine (applyAll_spec wf h fun b hb => Subst.mem_walk.1 hb).bind ?_
  rintro outs s₁ wf₁ le₁ ⟨chases, houts⟩
  refine (Ensures.get wf₁).bind ?_
  rintro _ s₂ - - ⟨rfl, rfl⟩
  refine .pure wf₁ ⟨⟨fun v q hv => ?_, fun v hv => ?_⟩, fun v free => ?_, fun v self => ?_, outs,
    chases, rfl⟩
  · have out := (List.mem_filter.1 (Subst.find?_ofList.1 q hv)).1
    obtain ⟨⟨w, p⟩, -, rfl, hd⟩ := exists_of_forall₂_right houts out
    exact hd
  · cases hv' : σ.find? v with
    | none => exact h.rests v (rests_of_free hv')
    | some q =>
        obtain ⟨⟨w, p⟩, out, rfl, hd⟩ := exists_of_forall₂_left houts (Subst.mem_walk.2 hv')
        -- the binding can only have been dropped because it binds the variable to itself
        have self : s₂.node? p = some (.var w) := by
          by_contra other
          exact Subst.find?_ofList.2 hv p (List.mem_filter.2 ⟨out, by simpa using other⟩)
        exact hd.unique (wf₁.denotes_var self)
  · by_contra bound
    obtain ⟨q, hq⟩ := Option.ne_none_iff_exists'.1 bound
    have out := (List.mem_filter.1 (Subst.find?_ofList.1 q hq)).1
    obtain ⟨⟨w, p⟩, walked, rfl, -⟩ := exists_of_forall₂_right houts out
    rw [Subst.mem_walk.1 walked] at free
    cases free
  · by_contra bound
    obtain ⟨q, hq⟩ := Option.ne_none_iff_exists'.1 bound
    obtain ⟨out, kept⟩ := List.mem_filter.1 (Subst.find?_ofList.1 q hq)
    obtain ⟨⟨w, p⟩, -, rfl, hd⟩ := exists_of_forall₂_right houts out
    rw [self] at hd
    simp [hd.node_var wf₁] at kept

end Store
end OrderedCompletion
