import OrderedCompletion.Proofs.Triangular
import OrderedCompletion.Unification

/-! Unification finds a most general unifier exactly if there is a unifier. -/

namespace OrderedCompletion

namespace Store

variable {s s' : Store} {σ : Subst} {θ τ : Var → Term} {a b r q : Ref} {v w : Var}
variable {P : Term → Prop}

/-- The substitution makes the terms of a pair equal. -/
def Unifies (s : Store) (pair : Ref × Ref) (τ : Var → Term) : Prop :=
  (s.term pair.1).subst τ = (s.term pair.2).subst τ

/-- Bound variables and what they are bound to have a property. -/
def Ranges (s : Store) (P : Term → Prop) (σ : Subst) : Prop :=
  ∀ v q, σ.find? v = some q → P (.var v) ∧ P (s.term q)

/-- The property goes over to arguments, and only stored terms have it. -/
structure Hereditary (s : Store) (P : Term → Prop) : Prop where
  arg : ∀ {f : Head} {ts : List Term} {t : Term}, P (.app f ts) → t ∈ ts → P t
  stored : ∀ {t : Term}, P t → ∃ r, s.Denotes r t

/-- The arguments of a stored term are stored. -/
theorem Denotes.exists_arg {f : Head} {ts : List Term} {t : Term} (wf : s.WellFormed)
    (h : ∃ r, s.Denotes r (.app f ts)) (ht : t ∈ ts) : ∃ r, s.Denotes r t := by
  obtain ⟨r, hr⟩ := h
  obtain ⟨args, -, hargs⟩ := hr.node_app wf
  obtain ⟨a, -, ha⟩ := exists_of_forall₂_right hargs ht
  exact ⟨a, ha⟩

theorem Ranges.bind (h : s.Ranges P σ) (hv : P (.var v)) (hq : P (s.term q)) :
    s.Ranges P (σ.bind v q) := by
  intro w p hw
  rw [Subst.find?_bind] at hw
  split at hw
  · rename_i same
    cases hw
    exact ⟨same ▸ hv, hq⟩
  · exact h w p hw

/-- There are no more bound variables than terms. -/
theorem card_support_le_size (stored : ∀ v ∈ σ.support, ∃ r, s.Denotes r (.var v)) :
    σ.support.card ≤ s.size := by
  let varAt : Ref → Var := fun r => match s.term r with
    | .var v => v
    | _ => 0
  have sub : σ.support ⊆ (Finset.range s.size).image varAt := by
    intro v hv
    obtain ⟨r, hr⟩ := stored v hv
    refine Finset.mem_image.2 ⟨r, Finset.mem_range.2 hr.1, ?_⟩
    simp only [varAt, hr.2]
  calc σ.support.card
      ≤ ((Finset.range s.size).image varAt).card := Finset.card_le_card sub
    _ ≤ (Finset.range s.size).card := Finset.card_image_le
    _ = s.size := Finset.card_range _

theorem Resolves.depth_le_height (wf : s.WellFormed) (h : s.Resolves σ θ) {rank : Var → Nat}
    (ranked : s.Ranked σ rank) (hv : σ.find? v = some q) :
    (θ v).depth ≤ (σ.height rank v + 1) * s.size := by
  induction hn : rank v using Nat.strongRecOn generalizing v q with
  | ind n ih =>
      rw [h.solves v q hv]
      have below : ∀ w ∈ (s.term q).vars, (θ w).depth ≤ σ.height rank v * s.size + 1 := by
        intro w hw
        have lt := ranked v q hv w hw
        cases hw' : σ.find? w with
        | none =>
            rw [h.free w hw', Term.depth]
            exact Nat.le_add_left 1 _
        | some p =>
            have deep := ih (rank w) (hn ▸ lt) hw' rfl
            have lower := Subst.height_lt_height hw' lt
            exact Nat.le_succ_of_le (Nat.le_trans deep (Nat.mul_le_mul_right _ lower))
      have whole := Term.depth_subst_le below
      have top : (s.term q).depth ≤ s.size :=
        Nat.le_trans ((denotes_term (h.known v q hv)).depth_le wf) (h.known v q hv)
      rw [Nat.add_mul, Nat.one_mul]
      omega

/-- No path down a stored term leads through more than the square of the bound. -/
theorem Resolves.depth_le (wf : s.WellFormed) (h : s.Resolves σ θ)
    (stored : ∀ v ∈ σ.support, ∃ r, s.Denotes r (.var v)) (hr : r < s.size) :
    ((s.term r).subst θ).depth ≤ s.bound * s.bound := by
  obtain ⟨rank, ranked⟩ := h.ranked
  have card := card_support_le_size stored
  have below : ∀ v ∈ (s.term r).vars, (θ v).depth ≤ s.size * s.size + 1 := by
    intro v _
    cases hv : σ.find? v with
    | none =>
        rw [h.free v hv, Term.depth]
        exact Nat.le_add_left 1 _
    | some q =>
        have low : σ.height rank v + 1 ≤ s.size := Nat.le_trans (Subst.height_lt_card hv) card
        exact Nat.le_succ_of_le
          (Nat.le_trans (h.depth_le_height wf ranked hv) (Nat.mul_le_mul_right _ low))
  have whole := Term.depth_subst_le below
  have top : (s.term r).depth ≤ s.size := Nat.le_trans ((denotes_term hr).depth_le wf) hr
  have square : s.bound * s.bound = s.size * s.size + 2 * s.size + 1 := by
    rw [bound, Nat.add_mul, Nat.mul_add]
    omega
  omega

theorem followUpTo_spec {n : Nat} {rank : Var → Nat} (wf : s.WellFormed) (known : s.Knows σ)
    (ranked : s.Ranked σ rank) (hr : r < s.size)
    (hn : ∀ v, s.node? r = some (.var v) → ∀ q, σ.find? v = some q → σ.height rank v < n) :
    s.followUpTo σ n r < s.size ∧
      (∀ τ, s.Solves σ τ → (s.term (s.followUpTo σ n r)).subst τ = (s.term r).subst τ) ∧
      (∀ v, s.node? (s.followUpTo σ n r) = some (.var v) → σ.find? v = none) ∧
      (∀ P, s.Ranges P σ → P (s.term r) → P (s.term (s.followUpTo σ n r))) := by
  induction n generalizing r with
  | zero =>
      refine ⟨hr, fun _ _ => rfl, fun v hv => ?_, fun _ _ h => h⟩
      cases hv' : σ.find? v with
      | none => rfl
      | some q => exact absurd (hn v hv q hv') (Nat.not_lt_zero _)
  | succ n ih =>
      rw [followUpTo]
      obtain ⟨node, hnode⟩ := exists_node hr
      cases node with
      | app f args =>
          simp only [hnode]
          exact ⟨hr, fun _ _ => trivial, fun v hv => (by cases hv), fun _ _ h => h⟩
      | var v =>
          cases hv : σ.find? v with
          | none =>
              simp only [hnode, hv]
              refine ⟨hr, fun _ _ => trivial, fun w hw => ?_, fun _ _ h => h⟩
              cases hw
              exact hv
          | some q =>
              simp only [hnode, hv]
              have hq := known v q hv
              obtain ⟨small, same, last, keeps⟩ := ih hq fun w hw p hp => by
                have inside : w ∈ (s.term q).vars := by rw [wf.below.term_var hw]; simp
                have lower := Subst.height_lt_height hp (ranked v q hv w inside)
                exact Nat.lt_of_lt_of_le lower (Nat.le_of_lt_succ (hn v hnode q hv))
              refine ⟨small, fun τ hτ => ?_, last, fun P ranges _ => keeps P ranges (ranges v q hv).2⟩
              rw [same τ hτ, wf.below.term_var hnode, Term.subst_var, hτ v q hv]

/-- A reference and what it stands for are not told apart by what respects the bindings. -/
theorem follow_spec (wf : s.WellFormed) (h : s.Resolves σ θ) (hr : r < s.size) :
    s.follow σ r < s.size ∧
      (∀ τ, s.Solves σ τ → (s.term (s.follow σ r)).subst τ = (s.term r).subst τ) ∧
      (∀ v, s.node? (s.follow σ r) = some (.var v) → σ.find? v = none) ∧
      (∀ P, s.Ranges P σ → P (s.term r) → P (s.term (s.follow σ r))) := by
  obtain ⟨rank, ranked⟩ := h.ranked
  refine followUpTo_spec wf h.known ranked hr fun v _ q hv => ?_
  exact Nat.lt_of_lt_of_le (Subst.height_lt_card hv) Subst.card_support_le

theorem SameTerms.follow (same : SameTerms s s') : s'.follow σ r = s.follow σ r := by
  rw [Store.follow, Store.follow]
  induction σ.bindings.length generalizing r with
  | zero => rfl
  | succ n ih =>
      rw [followUpTo, followUpTo, same.node?]
      cases s.node? r with
      | none => rfl
      | some node =>
          cases node with
          | app f args => rfl
          | var v =>
              dsimp only
              cases σ.find? v with
              | none => rfl
              | some q => exact ih

theorem reachesWithin_spec {n : Nat} (wf : s.WellFormed) (h : s.Resolves σ θ) (hr : r < s.size)
    (deep : ((s.term r).subst θ).depth ≤ n) (wf' : s'.WellFormed) (same : SameTerms s s') :
    s'.Ensures (reachesWithin σ v n r) fun yes s'' => SameTerms s s'' ∧
      (yes = true ↔ v ∈ ((s.term r).subst θ).vars) := by
  induction n generalizing s' r with
  | zero => exact absurd deep (Nat.not_le_of_lt Term.depth_pos)
  | succ n ih =>
      rw [reachesWithin]
      have hd : s'.Denotes r (s.term r) := same.denotes.2 (denotes_term hr)
      refine (isGround_spec wf' hd).bind ?_
      rintro _ s₁ wf₁ - ⟨rfl, same₁⟩
      replace same₁ := same.trans same₁
      split
      · rename_i ground
        have ground : (s.term r).IsGround := List.isEmpty_iff.1 ground
        have none : (s.term r).vars = [] := ground
        refine .pure wf₁ ⟨same₁, ?_⟩
        rw [ground.subst_eq, none]
        simp
      · refine (Ensures.get wf₁).bind ?_
        rintro _ s₂ - - ⟨rfl, rfl⟩
        rw [same₁.follow, same₁.node?]
        obtain ⟨small, same', last, -⟩ := follow_spec wf h hr
        rw [← same' θ h.solves] at deep ⊢
        obtain ⟨node, hnode⟩ := exists_node small
        rw [hnode]
        cases node with
        | var w =>
            refine .pure wf₁ ⟨same₁, ?_⟩
            rw [wf.below.term_var hnode, Term.subst_var, h.free w (last w hnode), Term.mem_vars_var,
              decide_eq_true_iff, eq_comm]
        | app f args =>
            rw [wf.below.term_app hnode, Term.subst_app] at deep ⊢
            have inner : s₂.Ensures (args.reverse.anyM (reachesWithin σ v n)) fun yes s₃ =>
                SameTerms s s₃ ∧ (yes = true ↔ ∃ a ∈ args.reverse, v ∈ ((s.term a).subst θ).vars) := by
              refine Ensures.anyM wf₁ same₁ fun a ha s₃ wf₃ _ same₃ => ?_
              have ha' := List.mem_reverse.1 ha
              have shallow : ((s.term a).subst θ).depth < n + 1 := by
                refine Nat.lt_of_lt_of_le (Term.depth_lt_of_mem (f := f) ?_) deep
                exact List.mem_map_of_mem (List.mem_map_of_mem ha')
              exact ih (Nat.lt_trans (wf.below hnode a ha') small) (Nat.le_of_lt_succ shallow) wf₃ same₃
            refine inner.mono fun yes s₃ _ _ h => ⟨h.1, ?_⟩
            rw [h.2, Term.mem_vars_app]
            simp

/-- Every chain of bindings that extends the given ones lets a term be at most so deep. -/
def Ample (s : Store) (P : Term → Prop) (σ : Subst) (n : Nat) (r : Ref) : Prop :=
  ∀ σ' θ, s.Resolves σ' θ → s.Ranges P σ' → s.Solves σ θ → ((s.term r).subst θ).depth ≤ n

/-- The bindings can be resolved, and have a property. -/
def Resolvable (s : Store) (P : Term → Prop) (σ : Subst) : Prop :=
  ∃ θ, s.Resolves σ θ ∧ s.Ranges P σ

theorem Ample.mono {σ' : Subst} {n : Nat} (h : s.Ample P σ n r)
    (le : ∀ τ, s.Solves σ' τ → s.Solves σ τ) : s.Ample P σ' n r :=
  fun σ'' θ hθ ranges solves => h σ'' θ hθ ranges (le θ solves)

theorem Ample.arg {n : Nat} {f : Head} {args : List Ref} (wf : s.WellFormed)
    (h : s.Ample P σ (n + 1) r) (hr : s.node? r = some (.app f args)) (ha : a ∈ args) :
    s.Ample P σ n a := by
  intro σ' θ hθ ranges solves
  have deep := h σ' θ hθ ranges solves
  rw [wf.below.term_app hr, Term.subst_app] at deep
  refine Nat.le_of_lt_succ (Nat.lt_of_lt_of_le (Term.depth_lt_of_mem (f := f) ?_) deep)
  exact List.mem_map_of_mem (List.mem_map_of_mem ha)

/-- A known reference whose term has the property and is at most so deep. -/
structure Fits (s : Store) (P : Term → Prop) (σ : Subst) (n : Nat) (r : Ref) : Prop where
  known : r < s.size
  has : P (s.term r)
  ample : s.Ample P σ n r

theorem Fits.mono {σ' : Subst} {n : Nat} (h : s.Fits P σ n r) (le : ∀ τ, s.Solves σ' τ → s.Solves σ τ) :
    s.Fits P σ' n r :=
  ⟨h.known, h.has, h.ample.mono le⟩

theorem Fits.arg {n : Nat} {f : Head} {args : List Ref} (wf : s.WellFormed) (hP : s.Hereditary P)
    (h : s.Fits P σ (n + 1) r) (hr : s.node? r = some (.app f args)) (ha : a ∈ args) : s.Fits P σ n a where
  known := Nat.lt_trans (wf.below hr a ha) h.known
  has := by
    have has := h.has
    rw [wf.below.term_app hr] at has
    exact hP.arg has (List.mem_map_of_mem ha)
  ample := h.ample.arg wf hr ha

/-- What a fitting reference stands for fits. -/
theorem Fits.follow {n : Nat} (wf : s.WellFormed) (hθ : s.Resolves σ θ) (ranges : s.Ranges P σ)
    (h : s.Fits P σ n r) : s.Fits P σ n (s.follow σ r) := by
  obtain ⟨known, same, -, keeps⟩ := follow_spec wf hθ h.known
  refine ⟨known, keeps P ranges h.has, ?_⟩
  intro σ' τ hτ ranges' solves
  rw [same τ solves]
  exact h.ample σ' τ hτ ranges' solves

theorem bind_refines (h : s.Resolves σ θ) (hP : s.Ranges P σ) (free : σ.find? v = none)
    (hv : P (.var v)) (hq : P (s.term q)) (small : q < s.size)
    (apart : v ∉ ((s.term q).subst θ).vars) (low : ∀ w, s.term q = .var w → w ≤ v) :
    Refines (s.Resolvable P) s.Solves σ (fun τ => τ v = (s.term q).subst τ) (some (σ.bind v q)) :=
  ⟨⟨_, h.bind free small apart low, hP.bind hv hq⟩, fun _ => Solves.bind_iff free⟩

/-- No term equals a variable inside of it. -/
theorem occurs_refines (wf : s.WellFormed) (h : s.Resolves σ θ) {f : Head} {args : List Ref}
    (hq : s.node? q = some (.app f args)) (inside : v ∈ ((s.term q).subst θ).vars) :
    Refines (s.Resolvable P) s.Solves σ (fun τ => τ v = (s.term q).subst τ) none := by
  intro τ hτ eq
  have onward : (s.term q).subst τ = ((s.term q).subst θ).subst τ := by
    rw [Term.subst_subst]
    exact Term.subst_congr fun w _ => (h.general hτ w).symm
  rw [onward, wf.below.term_app hq, Term.subst_app] at eq
  rw [wf.below.term_app hq, Term.subst_app] at inside
  have deeper := Term.depth_lt_depth_subst_app (θ := τ) inside
  rw [eq] at deeper
  exact Nat.lt_irrefl _ deeper

/-- Binds a variable that stands for itself to an application, unless it is inside. -/
theorem bindUnlessInside_spec {n : Nat} {f : Head} {args : List Ref} (wf : s.WellFormed)
    (h : s.Resolves σ θ) (ranges : s.Ranges P σ) (free : σ.find? v = none) (hv : P (.var v))
    (hq : P (s.term q)) (small : q < s.size) (hnode : s.node? q = some (.app f args))
    (ample : s.Ample P σ n q) (wf' : s'.WellFormed) (same : SameTerms s s') :
    s'.Ensures (do
      if ← reachesWithin σ v n q then failure
      return σ.bind v q : OptionT StoreM Subst).run fun o s'' => SameTerms s s'' ∧
        Refines (s.Resolvable P) s.Solves σ (fun τ => τ v = (s.term q).subst τ) o := by
  have deep := ample σ θ h ranges h.solves
  refine Ensures.bindLift (reachesWithin_spec (v := v) wf h small deep wf' same) fun yes s₁ wf₁ _ hyes => ?_
  split
  · rename_i inside
    exact .failure wf₁ ⟨hyes.1, occurs_refines wf h hnode (hyes.2.1 inside)⟩
  · rename_i outside
    refine .pureOption wf₁ ⟨hyes.1, bind_refines h ranges free hv hq small (fun inside => ?_) fun w hw => ?_⟩
    · exact outside (hyes.2.2 inside)
    · rw [wf.below.term_app hnode] at hw
      cases hw

/-- Of two variables that stand for themselves the greater one is bound to the other one. -/
theorem bindGreater_refines {n : Nat} (wf : s.WellFormed) (hσ : s.Resolvable P σ) (ha : s.Fits P σ n a)
    (hb : s.Fits P σ n b) (ne : a ≠ b) (hv : s.node? a = some (.var v)) (hw : s.node? b = some (.var w))
    (freeV : σ.find? v = none) (freeW : σ.find? w = none) :
    Refines (s.Resolvable P) s.Solves σ (s.Unifies (a, b)) (some (if v < w then σ.bind w a else σ.bind v b)) := by
  obtain ⟨θ, hθ, ranges⟩ := hσ
  have termA := wf.below.term_var hv
  have termB := wf.below.term_var hw
  have other : v ≠ w := by
    rintro rfl
    exact ne ((wf.denotes_var hv).inj (wf.denotes_var hw) wf)
  split
  · rename_i less
    have apart : w ∉ ((s.term a).subst θ).vars := by
      rw [termA, Term.subst_var, hθ.free v freeV, Term.mem_vars_var]
      exact other.symm
    have low : ∀ x, s.term a = .var x → x ≤ w := fun x hx => Term.var.inj (termA.symm.trans hx) ▸ Nat.le_of_lt less
    refine (bind_refines hθ ranges freeW (termB ▸ hb.has) ha.has ha.known apart low).congr fun τ _ => ?_
    rw [Unifies, termB]
    exact eq_comm
  · rename_i le
    have apart : v ∉ ((s.term b).subst θ).vars := by
      rw [termB, Term.subst_var, hθ.free w freeW, Term.mem_vars_var]
      exact other
    have low : ∀ x, s.term b = .var x → x ≤ v := fun x hx => Term.var.inj (termB.symm.trans hx) ▸ Nat.le_of_not_lt le
    refine (bind_refines hθ ranges freeV (termA ▸ ha.has) hb.has hb.known apart low).congr fun τ _ => ?_
    rw [Unifies, termA]
    rfl

theorem unifies_app_iff {f g : Head} {ss ts : List Ref} (wf : s.WellFormed) (ha : s.node? a = some (.app f ss))
    (hb : s.node? b = some (.app g ts)) : s.Unifies (a, b) τ ↔
      (f = g ∧ ss.length = ts.length) ∧ ∀ pair ∈ (ss.zip ts).reverse, s.Unifies pair τ := by
  rw [Unifies, wf.below.term_app ha, wf.below.term_app hb, Term.subst_app, Term.subst_app, List.map_map, List.map_map]
  exact app_eq_app_iff

theorem unifyWithin_spec {n : Nat} (wf : s.WellFormed) (hP : s.Hereditary P) (ha : s.Fits P σ n a)
    (hb : s.Fits P σ n b) (hσ : s.Resolvable P σ) (wf' : s'.WellFormed) (same : SameTerms s s') :
    s'.Ensures (unifyWithin n σ (a, b)).run fun o s'' =>
      SameTerms s s'' ∧ Refines (s.Resolvable P) s.Solves σ (s.Unifies (a, b)) o := by
  induction n generalizing s' a b σ with
  | zero =>
      obtain ⟨θ, hθ, ranges⟩ := hσ
      exact absurd (ha.ample σ θ hθ ranges hθ.solves) (Nat.not_le_of_lt Term.depth_pos)
  | succ n ih =>
      obtain ⟨θ, hθ, ranges⟩ := hσ
      rw [unifyWithin]
      refine Ensures.bindLift (Ensures.get wf') ?_
      rintro _ s₁ - - ⟨rfl, rfl⟩
      simp only [same.follow, same.node?]
      -- the bindings do not tell the references from what they stand for
      obtain ⟨-, eqA, freeA, -⟩ := follow_spec wf hθ ha.known
      obtain ⟨-, eqB, freeB, -⟩ := follow_spec wf hθ hb.known
      have unifies : ∀ τ, s.Solves σ τ → (s.Unifies (s.follow σ a, s.follow σ b) τ ↔ s.Unifies (a, b) τ) := by
        intro τ hτ
        rw [Unifies, Unifies, eqA τ hτ, eqB τ hτ]
      replace ha := ha.follow wf hθ ranges
      replace hb := hb.follow wf hθ ranges
      generalize s.follow σ a = a' at *
      generalize s.follow σ b = b' at *
      split
      · rename_i eq
        refine .pureOption wf' ⟨same, ⟨θ, hθ, ranges⟩, fun τ => ⟨fun h => ⟨h, (unifies τ h).1 ?_⟩, fun h => h.1⟩⟩
        rw [Unifies, eq]
      · rename_i ne
        obtain ⟨nodeA, hnodeA⟩ := exists_node ha.known
        obtain ⟨nodeB, hnodeB⟩ := exists_node hb.known
        rw [hnodeA, hnodeB]
        cases nodeA with
        | var v =>
            cases nodeB with
            | var w =>
                have bound := bindGreater_refines wf ⟨θ, hθ, ranges⟩ ha hb ne hnodeA hnodeB (freeA v hnodeA)
                  (freeB w hnodeB)
                exact .pureOption wf' ⟨same, bound.congr unifies⟩
            | app g ts =>
                have termA := wf.below.term_var hnodeA
                refine (bindUnlessInside_spec wf hθ ranges (freeA v hnodeA) (termA ▸ ha.has) hb.has hb.known hnodeB
                  hb.ample wf' same).mono fun o s₂ _ _ h => ⟨h.1, h.2.congr fun τ hτ => ?_⟩
                rw [← unifies τ hτ, Unifies, termA]
                rfl
        | app f ss =>
            cases nodeB with
            | var w =>
                have termB := wf.below.term_var hnodeB
                refine (bindUnlessInside_spec wf hθ ranges (freeB w hnodeB) (termB ▸ hb.has) ha.has ha.known hnodeA
                  ha.ample wf' same).mono fun o s₂ _ _ h => ⟨h.1, h.2.congr fun τ hτ => ?_⟩
                rw [← unifies τ hτ, Unifies, termB]
                exact eq_comm
            | app g ts =>
                have split : ∀ τ, s.Solves σ τ → (s.Unifies (a, b) τ ↔ (f = g ∧ ss.length = ts.length) ∧
                    ∀ pair ∈ (ss.zip ts).reverse, s.Unifies pair τ) := fun τ hτ =>
                  (unifies τ hτ).symm.trans (unifies_app_iff wf hnodeA hnodeB)
                refine Ensures.bindGuard wf' (fun eq => ?_) fun clash => ⟨same, fun τ hτ h => clash ?_⟩
                · refine (foldlM_refines s.Unifies ?_ wf' same ⟨θ, hθ, ranges⟩
                    fun _ h => h).mono fun o s₂ _ _ h => ⟨h.1, h.2.congr fun τ hτ => ?_⟩
                  · intro pair hpair σ' s' wf' same hσ' le
                    obtain ⟨hl, hr⟩ := List.of_mem_zip (List.mem_reverse.1 hpair)
                    exact ih ((ha.arg wf hP hnodeA hl).mono le) ((hb.arg wf hP hnodeB hr).mono le) hσ' wf' same
                  · rw [split τ hτ]
                    exact ⟨fun h => ⟨eq, h⟩, fun h => h.2⟩
                · exact ((split τ hτ).1 h).1

/-- One substitution unifies the terms of all pairs, and all others that do are instances of it. It is made
of what the pairs are made of. -/
structure MostGeneral (s : Store) (pairs : List (Ref × Ref)) (θ : Var → Term) : Prop where
  unifies : ∀ pair ∈ pairs, s.Unifies pair θ
  general : ∀ τ, (∀ pair ∈ pairs, s.Unifies pair τ) → ∀ v, (θ v).subst τ = τ v
  inSig : ∀ sig, (∀ pair ∈ pairs, (s.term pair.1).Over sig ∧ (s.term pair.2).Over sig) →
    ∀ v, (θ v).Over sig

theorem Hereditary.ample {n : Nat} (wf : s.WellFormed) (hP : s.Hereditary P)
    (enough : s.bound * s.bound ≤ n) (hr : r < s.size) : s.Ample P σ n r := by
  intro σ' θ hθ ranges _
  have stored : ∀ v ∈ σ'.support, ∃ r, s.Denotes r (.var v) := by
    intro v hv
    obtain ⟨q, hq⟩ := Subst.mem_support.1 hv
    exact hP.stored (ranges v q hq).1
  exact Nat.le_trans (hθ.depth_le wf stored hr) enough

theorem resolvable_empty : s.Resolvable P .empty := ⟨.var, resolves_empty, fun v q hv => by cases hv⟩

/-- What the bindings come to before they are resolved. -/
theorem unifyAll_spec {n : Nat} (wf : s.WellFormed) (hP : s.Hereditary P) {pairs : List (Ref × Ref)}
    (known : ∀ pair ∈ pairs, pair.1 < s.size ∧ pair.2 < s.size)
    (inputs : ∀ pair ∈ pairs, P (s.term pair.1) ∧ P (s.term pair.2))
    (enough : s.bound * s.bound ≤ n) :
    s.Ensures (pairs.reverse.foldlM (unifyWithin n) .empty).run fun o s' => SameTerms s s' ∧
      Refines (s.Resolvable P) s.Solves .empty (fun θ => ∀ pair ∈ pairs, s.Unifies pair θ) o := by
  refine (foldlM_refines s.Unifies (fun pair hpair σ s' wf' same hσ _ => ?_) wf (.refl s) resolvable_empty
    fun _ h => h).mono fun o s' _ _ h => ⟨h.1, h.2.congr fun θ _ => by simp only [List.mem_reverse]⟩
  have hpair := List.mem_reverse.1 hpair
  obtain ⟨small, small'⟩ := known pair hpair
  obtain ⟨ha, hb⟩ := inputs pair hpair
  exact unifyWithin_spec wf hP ⟨small, ha, hP.ample wf enough small⟩ ⟨small', hb, hP.ample wf enough small'⟩
    hσ wf' same

/-- Of pairs of known references bindings are found exactly if there is a unifier. They are what chains of
bindings lead to that have the properties of the given terms. -/
theorem unifyPairs?_resolves (wf : s.WellFormed) (hP : s.Hereditary P) {pairs : List (Ref × Ref)}
    (known : ∀ pair ∈ pairs, pair.1 < s.size ∧ pair.2 < s.size)
    (inputs : ∀ pair ∈ pairs, P (s.term pair.1) ∧ P (s.term pair.2)) :
    s.Ensures (unifyPairs? pairs).run fun o s' => match o with
      | some σ => ∃ ω θ, s.Resolves ω θ ∧ s.Ranges P ω ∧ s'.Binds σ θ ∧
          (∀ v, ω.find? v = none → σ.find? v = none) ∧
          ∀ τ, s.Solves ω τ ↔ ∀ pair ∈ pairs, s.Unifies pair τ
      | none => ∀ τ, ¬ ∀ pair ∈ pairs, s.Unifies pair τ := by
  rw [unifyPairs?]
  refine Ensures.bindLift (Ensures.get wf) ?_
  rintro _ s₁ - - ⟨rfl, rfl⟩
  have trivially : ∀ τ, s₁.Solves .empty τ := fun τ v q hv => by cases hv
  refine Ensures.bindOption (unifyAll_spec wf hP known inputs (Nat.le_refl _)) ?_ ?_
  · rintro ω s₂ wf₂ le₂ ⟨-, ⟨θ, hθ, ranges⟩, sols⟩
    refine Ensures.map (resolve_spec wf₂ (hθ.mono wf wf₂ le₂).chains) ?_
    rintro σ s₃ - - ⟨binds, free, -⟩
    refine ⟨ω, θ, hθ, ranges, binds, free, fun τ => ?_⟩
    rw [sols τ]
    exact and_iff_right (trivially τ)
  · rintro s₂ - - ⟨-, none⟩ τ hτ
    exact none τ (trivially τ) hτ

/-- Of pairs of known references a most general unifier is found exactly if there is a unifier. -/
theorem unifyPairs?_spec (wf : s.WellFormed) {pairs : List (Ref × Ref)}
    (known : ∀ pair ∈ pairs, pair.1 < s.size ∧ pair.2 < s.size) :
    s.Ensures (unifyPairs? pairs).run fun o s' => match o with
      | some σ => ∃ θ, s'.Binds σ θ ∧ s.MostGeneral pairs θ
      | none => ∀ τ, ¬ ∀ pair ∈ pairs, s.Unifies pair τ := by
  -- what the bindings are made of: stored terms over each signature that the pairs are over
  let P : Term → Prop := fun t => (∃ r, s.Denotes r t) ∧ ∀ sig : Signature,
    (∀ pair ∈ pairs, (s.term pair.1).Over sig ∧ (s.term pair.2).Over sig) → t.Over sig
  have hP : s.Hereditary P := by
    refine ⟨fun {f ts t} h ht => ⟨Denotes.exists_arg wf h.1 ht, fun sig inSig => ?_⟩, fun h => h.1⟩
    exact (Term.over_app_iff.1 (h.2 sig inSig)).2 t ht
  have inputs : ∀ pair ∈ pairs, P (s.term pair.1) ∧ P (s.term pair.2) := fun pair hpair =>
    ⟨⟨⟨_, denotes_term (known pair hpair).1⟩, fun sig inSig => (inSig pair hpair).1⟩,
      ⟨_, denotes_term (known pair hpair).2⟩, fun sig inSig => (inSig pair hpair).2⟩
  refine (unifyPairs?_resolves wf hP known inputs).mono fun o s' _ _ h => ?_
  cases o with
  | none => exact h
  | some σ =>
      obtain ⟨ω, θ, hθ, ranges, binds, -, sols⟩ := h
      refine ⟨θ, binds, (sols θ).1 hθ.solves, fun τ hτ => hθ.general ((sols τ).2 hτ), ?_⟩
      exact fun sig inSig => hθ.inSig fun v q hv => (ranges v q hv).2.2 sig inSig

end Store

/-- A most general unifier of two terms that is made of what they are made of. -/
structure IsMgu (a b : Term) (θ : Var → Term) : Prop where
  unifies : a.subst θ = b.subst θ
  general : ∀ τ : Var → Term, a.subst τ = b.subst τ → ∀ v, (θ v).subst τ = τ v
  inSig : ∀ sig, a.Over sig → b.Over sig → ∀ v, (θ v).Over sig

theorem Store.unify?_spec {s : Store} {r q : Ref} {a b : Term} (wf : s.WellFormed)
    (ha : s.Denotes r a) (hb : s.Denotes q b) :
    s.Ensures (unify? r q).run fun o s' => match o with
      | some σ => ∃ θ, s'.Binds σ θ ∧ IsMgu a b θ
      | none => ∀ τ, a.subst τ ≠ b.subst τ := by
  obtain ⟨hr, rfl⟩ := ha
  obtain ⟨hq, rfl⟩ := hb
  refine (unifyPairs?_spec wf ?_).mono fun o s' _ _ h => ?_
  · intro pair hpair
    obtain rfl := List.mem_singleton.1 hpair
    exact ⟨hr, hq⟩
  · cases o with
    | none => exact fun τ eq => h τ fun pair hpair => List.mem_singleton.1 hpair ▸ eq
    | some σ =>
        obtain ⟨θ, hb, mgu⟩ := h
        refine ⟨θ, hb, mgu.unifies (r, q) (by simp), fun τ eq => mgu.general τ ?_, fun sig ha hb => ?_⟩
        · exact fun pair hpair => List.mem_singleton.1 hpair ▸ eq
        · exact mgu.inSig sig fun pair hpair => List.mem_singleton.1 hpair ▸ ⟨ha, hb⟩

end OrderedCompletion
