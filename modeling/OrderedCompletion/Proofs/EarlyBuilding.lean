import OrderedCompletion.Proofs.EarlyNotes
import OrderedCompletion.Proofs.Reading
import OrderedCompletion.Proofs.Thawing

/-! What is built from terms that are clear does not depend on what was asked early: the subterms of one tree
enter the store, in one order. -/

namespace OrderedCompletion

namespace Term

variable {t u : Term} {ts us : List Term}

theorem Over.freeze (h : t.Over .full) : t.freeze.Over .full :=
  freeze_eq_subst ▸ h.subst fun _ _ => .app trivial nofun

theorem unfreezeList_eq_ok_iff :
    unfreezeList ts = .ok us ↔ List.Forall₂ (fun t u => t.unfreeze = .ok u) ts us := by
  refine ⟨fun h => ?_, unfreezeList_eq_ok⟩
  induction ts generalizing us with
  | nil =>
      cases h
      exact .nil
  | cons t ts ih =>
      rw [unfreezeList] at h
      cases first : t.unfreeze with
      | error e =>
          rw [first] at h
          cases h
      | ok u =>
          cases rest : unfreezeList ts with
          | error e =>
              rw [first, rest] at h
              cases h
          | ok us' =>
              rw [first, rest] at h
              cases h
              exact .cons first (ih rest)

theorem over_of_unfreeze (h : t.unfreeze = .ok u) : u.Over .full := by
  induction t using Term.induct generalizing u with
  | var v => cases h
  | missing r => cases h
  | app f args ih =>
      cases f with
      | frozen v =>
          cases h
          exact .var v
      | symbol c =>
          rw [unfreeze] at h
          cases inner : unfreezeList args with
          | error e =>
              rw [inner] at h
              cases h
          | ok us =>
              rw [inner] at h
              cases h
              refine .app trivial fun w hw => ?_
              obtain ⟨a, ha, thawed⟩ := Store.exists_of_forall₂_right (unfreezeList_eq_ok_iff.1 inner) hw
              exact ih a ha thawed

end Term

namespace Store

variable {early : Set Ref} {s s₀ s₁ s₂ : Store} {r q : Ref} {t : Term} {f : Head} {args : List Ref}

/-- The answer is the reference of the term, and nothing enters but its subterms. -/
def Builds (early : Set Ref) (s₀ : Store) (x : StoreM Ref) (t : Term) : Prop :=
  Gives early s₀ x (· = (ofTerm t s₀).1) (ofTerm t s₀).2

theorem Builds.stored (wf : s₀.WellFormed) (hd : s₀.Denotes q t) : Builds early s₀ (Pure.pure q) t := by
  rw [Builds, ofTerm_of_denotes wf hd]
  exact .pure rfl

theorem Builds.mapM {x : Ref → StoreM Ref} {g : Ref → Term} (wf : s₀.WellFormed)
    (full : ∀ a ∈ args, (g a).Over .full)
    (h : ∀ a ∈ args, ∀ s₁, s₁.WellFormed → s₀ ≤ s₁ → Builds early s₁ (x a) (g a)) :
    Gives early s₀ (args.mapM x) (· = (ofTerms (args.map g) s₀).1) (ofTerms (args.map g) s₀).2 := by
  induction args generalizing s₀ with
  | nil => exact .pure rfl
  | cons a args ih =>
      rw [List.mapM_cons]
      obtain ⟨wf₁, le₁, -⟩ := ofTerm_spec wf (full a List.mem_cons_self)
      refine (h a List.mem_cons_self s₀ wf le_rfl).bind ?_
      rintro _ rfl
      have rest := ih wf₁ (fun b hb => full b (List.mem_cons_of_mem a hb)) fun b hb s₁ wf' le =>
        h b (List.mem_cons_of_mem a hb) s₁ wf' (le₁.trans le)
      refine rest.bind ?_
      rintro _ rfl
      exact .pure rfl

/-- An application enters once its arguments have. -/
theorem app_gives {ts : List Term} (wf : s₀.WellFormed) (full : ∀ t ∈ ts, t.Over .full) :
    Gives early (ofTerms ts s₀).2 (Store.app f (ofTerms ts s₀).1) (· = (ofTerm (.app f ts) s₀).1)
      (ofTerm (.app f ts) s₀).2 := by
  obtain ⟨wf₁, -, all⟩ := ofTerms_spec wf full
  refine intern_gives wf₁ fun a ha => ?_
  obtain ⟨t, -, known⟩ := exists_of_forall₂_left all ha
  exact known.1

theorem Builds.app {x : StoreM (List Ref)} {ts : List Term} (wf : s₀.WellFormed) (full : ∀ t ∈ ts, t.Over .full)
    (hx : Gives early s₀ x (· = (ofTerms ts s₀).1) (ofTerms ts s₀).2) :
    Builds early s₀ (x >>= Store.app f) (.app f ts) := by
  refine hx.bind ?_
  rintro _ rfl
  exact app_gives wf full

/-- An action that walks down a term does to an application what it does to the arguments. -/
theorem Builds.node {n : Nat} {x : Ref → StoreM Ref} {g : Term → Term} (wf : s₀.WellFormed)
    (hnode : s₀.node? r = some (.app f args)) (deep : r < n + 1) (clear : s₀.Clear early r)
    (full : ∀ t, t.Over .full → (g t).Over .full)
    (h : ∀ a s₁, s₁.WellFormed → s₀ ≤ s₁ → a < s₁.size → a < n → s₁.Clear early a →
      Builds early s₁ (x a) (g (s₁.term a))) :
    Builds early s₀ (args.mapM x >>= Store.app f) (.app f ((args.map s₀.term).map g)) := by
  have small : ∀ a ∈ args, a < s₀.size := fun a ha =>
    Nat.lt_trans (wf.below hnode a ha) (lt_size_of_node ⟨_, hnode⟩)
  have inner : ∀ a ∈ args, (g (s₀.term a)).Over .full := fun a ha =>
    full _ ((denotes_term (small a ha)).over_full wf)
  have each : ∀ a ∈ args, ∀ s₁, s₁.WellFormed → s₀ ≤ s₁ → Builds early s₁ (x a) (g (s₀.term a)) := by
    intro a ha s₁ wf₁ le₁
    rw [← wf.below.term_of_le wf₁.below le₁ (small a ha)]
    exact h a s₁ wf₁ le₁ (Nat.lt_of_lt_of_le (small a ha) (size_le_of_le le₁))
      (Nat.lt_of_lt_of_le (wf.below hnode a ha) (Nat.le_of_lt_succ deep))
      ((clear_of_le wf wf₁ le₁ (small a ha)).2 (clear.arg hnode ha))
  rw [List.map_map]
  refine Builds.app wf (fun t ht => ?_) (Builds.mapM wf inner each)
  obtain ⟨a, ha, rfl⟩ := List.mem_map.1 ht
  exact inner a ha

theorem freezeWithin_builds {n : Nat} (wf : s₀.WellFormed) (hr : r < s₀.size) (deep : r < n)
    (clear : s₀.Clear early r) : Builds early s₀ (freezeWithin n r) (s₀.term r).freeze := by
  induction n generalizing s₀ r with
  | zero => exact absurd deep (Nat.not_lt_zero r)
  | succ n ih =>
      have full := (denotes_term hr).over_full wf
      obtain ⟨wf₁, le₁, denotes⟩ := ofTerm_spec wf full.freeze
      rw [freezeWithin]
      refine .bindGet fun s hs => ?_
      split
      · rename_i q known
        have right : s₀.Denotes q (s₀.term r).freeze := by
          obtain ⟨asked, rfl⟩ | ⟨-, right⟩ := hs.frozen known
          · have ground := clear.isGround asked
            rw [Term.freeze_eq_subst, ground.subst_eq]
            exact denotes_term hr
          · exact right clear
        exact Builds.stored wf right
      · refine .bindGet fun s hs => ?_
        extract_lets note
        have noted : Gives early (ofTerm (s₀.term r).freeze s₀).2 (note (ofTerm (s₀.term r).freeze s₀).1)
            (· = (ofTerm (s₀.term r).freeze s₀).1) (ofTerm (s₀.term r).freeze s₀).2 := by
          refine fun s hs => ⟨rfl, hs.noteFrozen (.inr ⟨Nat.lt_of_lt_of_le hr (size_le_of_le le₁), fun _ => ?_⟩)⟩
          rwa [wf.below.term_of_le wf₁.below le₁ hr]
        obtain ⟨node, hnode⟩ := exists_node hr
        rw [hs.same.node?, hnode]
        cases node with
        | var v =>
            have same : (s₀.term r).freeze = .app (.frozen v) [] := by rw [wf.below.term_var hnode, Term.freeze_var]
            have made : Builds early s₀ (rigid v) (.app (.frozen v) []) :=
              intern_gives wf fun a ha => absurd ha List.not_mem_nil
            rw [same] at noted ⊢
            refine Gives.bind made ?_
            rintro _ rfl
            exact noted
        | app f args =>
            have same : (s₀.term r).freeze = .app f ((args.map s₀.term).map Term.freeze) := by
              rw [wf.below.term_app hnode, Term.freeze_app]
            have parts : Builds early s₀ (args.mapM (freezeWithin n) >>= Store.app f)
                (.app f ((args.map s₀.term).map Term.freeze)) :=
              .node wf hnode deep clear (fun _ => Term.Over.freeze) fun a s₁ wf₁ _ ha deep clear =>
                ih wf₁ ha deep clear
            rw [same] at noted ⊢
            change Gives early s₀ ((args.mapM (freezeWithin n) >>= Store.app f) >>= note) _ _
            refine Gives.bind parts ?_
            rintro _ rfl
            exact noted

theorem freeze_builds (wf : s₀.WellFormed) (hr : r < s₀.size) (clear : s₀.Clear early r) :
    Builds early s₀ (freeze r) (s₀.term r).freeze := by
  refine .bindGet fun s hs => ?_
  rw [growingBound, hs.same.size]
  exact freezeWithin_builds wf hr (Nat.lt_of_lt_of_le hr (Nat.le_add_right _ _)) clear

theorem Binds.over_full {σ : Subst} {θ : Var → Term} (h : s.Binds σ θ) (wf : s.WellFormed) (v : Var) :
    (θ v).Over .full := by
  cases found : σ.find? v with
  | none => exact h.free v found ▸ .var v
  | some q => exact (h.bound v q found).over_full wf

theorem applyWithin_builds {n : Nat} {σ : Subst} {θ : Var → Term} (wf : s₀.WellFormed) (hb : s₀.Binds σ θ)
    (hr : r < s₀.size) (deep : r < n) (clear : s₀.Clear early r) :
    Builds early s₀ (applyWithin σ n r) ((s₀.term r).subst θ) := by
  induction n generalizing s₀ r with
  | zero => exact absurd deep (Nat.not_lt_zero r)
  | succ n ih =>
      rw [applyWithin]
      have asked : s₀.size ≤ r → r ∈ early := fun unknown => absurd hr (Nat.not_lt_of_le unknown)
      refine ((vars_gives wf asked).mono fun _ right => right clear).bind ?_
      rintro _ rfl
      split
      · rename_i none
        refine Builds.stored wf ?_
        rw [Term.subst_eq_self fun v hv => ?_]
        · exact denotes_term hr
        · simp only [Bool.not_eq_true', List.any_eq_false] at none
          exact hb.free v (Subst.find?_eq_none.2 (eq_false_of_ne_true (none v hv)))
      · refine .bindGet fun s hs => ?_
        obtain ⟨node, hnode⟩ := exists_node hr
        rw [hs.same.node?, hnode]
        cases node with
        | var v =>
            refine Builds.stored wf ?_
            rw [wf.below.term_var hnode, Term.subst_var]
            cases hv : σ.find? v with
            | none =>
                rw [hb.free v hv]
                exact wf.denotes_var hnode
            | some q => exact hb.bound v q hv
        | app f args =>
            have images : ∀ v, (θ v).Over .full := hb.over_full wf
            rw [wf.below.term_app hnode, Term.subst_app]
            exact Builds.node wf hnode deep clear (fun _ inSig => inSig.subst fun v _ => images v)
              fun a s₁ wf₁ le₁ ha deep clear => ih wf₁ (hb.mono wf wf₁ le₁) ha deep clear

theorem apply_builds {σ : Subst} {θ : Var → Term} (wf : s₀.WellFormed) (hb : s₀.Binds σ θ) (hr : r < s₀.size)
    (clear : s₀.Clear early r) : Builds early s₀ (apply σ r) ((s₀.term r).subst θ) := by
  rw [apply]
  split
  · rename_i none
    refine Builds.stored wf ?_
    rw [Term.subst_eq_self fun v _ => ?_]
    · exact denotes_term hr
    · rw [Subst.isEmpty, List.isEmpty_iff] at none
      exact hb.free v (by rw [Subst.find?, none, List.lookup_nil])
  · refine Gives.bindGet fun s hs => ?_
    rw [bound, hs.same.size]
    exact applyWithin_builds wf hb hr (Nat.lt_succ_of_lt hr) clear

section
variable {ε α β : Type} {x : ExceptT ε StoreM α} {g : α → ExceptT ε StoreM β} {Q : Except ε α → Prop}
variable {R : Except ε β → Prop}

theorem Gives.bindThe {g : Store → ExceptT ε StoreM β} (h : ∀ s, Reliable early s₀ s → Gives early s₀ (g s).run R s₁) :
    Gives early s₀ (getThe Store >>= g).run R s₁ :=
  fun s hs => h s hs s hs

theorem Gives.bindOk {a : α} (hx : Gives early s₀ x.run (· = .ok a) s₁) (hg : Gives early s₁ (g a).run R s₂) :
    Gives early s₀ (x >>= g).run R s₂ := by
  rw [ExceptT.run_bind]
  refine hx.bind ?_
  rintro _ rfl
  exact hg

theorem Gives.bindError {e : ε} (hx : Gives early s₀ x.run (· = .error e) s₁) :
    Gives early s₀ (x >>= g).run (· = .error e) s₁ := by
  rw [ExceptT.run_bind]
  refine hx.bind ?_
  rintro _ rfl
  exact .pure rfl

theorem Gives.liftExcept {y : StoreM α} {a : α} (hy : Gives early s₀ y (· = a) s₁) :
    Gives early s₀ (liftM y : ExceptT ε StoreM α).run (· = .ok a) s₁ := by
  intro s hs
  obtain ⟨same, reliable⟩ := hy s hs
  exact ⟨congrArg Except.ok same, reliable⟩

end

/-- The outcome is that of unfreezing the tree. If there is a term, nothing enters but its subterms. -/
def Melts (early : Set Ref) (s₀ : Store) (x : ExceptT TermError StoreM Ref) (t : Term) : Prop :=
  match t.unfreeze with
  | .ok u => Gives early s₀ x.run (· = .ok (ofTerm u s₀).1) (ofTerm u s₀).2
  | .error e => ∃ s₁, s₁.WellFormed ∧ s₀ ≤ s₁ ∧ Gives early s₀ x.run (· = .error e) s₁

/-- So are the outcomes of several of them. -/
def MeltsAll (early : Set Ref) (s₀ : Store) (x : ExceptT TermError StoreM (List Ref)) (ts : List Term) : Prop :=
  match Term.unfreezeList ts with
  | .ok us => Gives early s₀ x.run (· = .ok (ofTerms us s₀).1) (ofTerms us s₀).2
  | .error e => ∃ s₁, s₁.WellFormed ∧ s₀ ≤ s₁ ∧ Gives early s₀ x.run (· = .error e) s₁

theorem Melts.mapM {x : Ref → ExceptT TermError StoreM Ref} {g : Ref → Term} (wf : s₀.WellFormed)
    (h : ∀ a ∈ args, ∀ s₁, s₁.WellFormed → s₀ ≤ s₁ → Melts early s₁ (x a) (g a)) :
    MeltsAll early s₀ (args.mapM x) (args.map g) := by
  induction args generalizing s₀ with
  | nil => exact .pure rfl
  | cons a args ih =>
      have first := h a List.mem_cons_self s₀ wf le_rfl
      rw [MeltsAll, List.map_cons, List.mapM_cons, Term.unfreezeList]
      rw [Melts] at first
      cases outcome : (g a).unfreeze with
      | error e =>
          rw [outcome] at first
          obtain ⟨s₁, wf₁, le₁, stops⟩ := first
          exact ⟨s₁, wf₁, le₁, stops.bindError⟩
      | ok u =>
          rw [outcome] at first
          obtain ⟨wf₁, le₁, -⟩ := ofTerm_spec wf (Term.over_of_unfreeze outcome)
          have rest := ih wf₁ fun b hb s₁ wf' le => h b (List.mem_cons_of_mem a hb) s₁ wf' (le₁.trans le)
          rw [MeltsAll] at rest
          cases others : Term.unfreezeList (args.map g) with
          | error e =>
              rw [others] at rest
              obtain ⟨s₂, wf₂, le₂, stops⟩ := rest
              exact ⟨s₂, wf₂, le₁.trans le₂, first.bindOk stops.bindError⟩
          | ok us =>
              rw [others] at rest
              exact first.bindOk (rest.bindOk (.pure rfl))

/-- A note that was taken before saves the work. -/
theorem Melts.recall {x : ExceptT TermError StoreM Ref} (wf : s₀.WellFormed)
    (h : Melts early s₀ x (s₀.term r)) :
    Melts early s₀ (do
      match (← getThe Store).thawedOf[r]? with
      | some out => return out
      | none => x) (s₀.term r) := by
  rw [Melts] at h ⊢
  cases outcome : (s₀.term r).unfreeze with
  | ok u =>
      rw [outcome] at h
      refine .bindThe fun s hs => ?_
      split
      · rename_i q known
        obtain ⟨-, t, thawed, hq⟩ := hs.thawed known
        rw [outcome] at thawed
        cases thawed
        rw [ofTerm_of_denotes wf hq]
        exact .pure rfl
      · exact h
  | error e =>
      rw [outcome] at h
      obtain ⟨s₁, wf₁, le₁, stops⟩ := h
      refine ⟨s₁, wf₁, le₁, .bindThe fun s hs => ?_⟩
      split
      · rename_i q known
        obtain ⟨-, t, thawed, -⟩ := hs.thawed known
        rw [outcome] at thawed
        cases thawed
      · exact stops

theorem Melts.bindThe {x : ExceptT TermError StoreM Ref} {g : Store → ExceptT TermError StoreM Ref}
    (same : ∀ s, Reliable early s₀ s → g s = x) (h : Melts early s₀ x t) :
    Melts early s₀ (getThe Store >>= g) t := by
  rw [Melts] at h ⊢
  cases outcome : t.unfreeze with
  | ok u =>
      rw [outcome] at h
      refine .bindThe fun s hs => ?_
      rw [same s hs]
      exact h
  | error e =>
      rw [outcome] at h
      obtain ⟨s₁, wf₁, le₁, stops⟩ := h
      refine ⟨s₁, wf₁, le₁, .bindThe fun s hs => ?_⟩
      rw [same s hs]
      exact stops

theorem unfreezeWithin_melts {n : Nat} (wf : s₀.WellFormed) (hr : r < s₀.size) (deep : r < n) :
    Melts early s₀ (unfreezeWithin n r) (s₀.term r) := by
  induction n generalizing s₀ r with
  | zero => exact absurd deep (Nat.not_lt_zero r)
  | succ n ih =>
      rw [unfreezeWithin]
      refine Melts.recall wf (Melts.bindThe (fun s hs => by rw [hs.same.node? r]) ?_)
      extract_lets note
      have noted : ∀ {u : Term}, (s₀.term r).unfreeze = .ok u →
          Gives early (ofTerm u s₀).2 (note (ofTerm u s₀).1).run (· = .ok (ofTerm u s₀).1) (ofTerm u s₀).2 := by
        intro u thawed s hs
        obtain ⟨wf₁, le₁, denotes⟩ := ofTerm_spec wf (Term.over_of_unfreeze thawed)
        refine ⟨rfl, hs.noteThawed (Nat.lt_of_lt_of_le hr (size_le_of_le le₁)) ?_ denotes⟩
        rw [wf.below.term_of_le wf₁.below le₁ hr]
        exact thawed
      obtain ⟨node, hnode⟩ := exists_node hr
      rw [hnode, Melts]
      cases node with
      | var v =>
          have thawed : (s₀.term r).unfreeze = .error (.notFrozen v) := by
            rw [wf.below.term_var hnode, Term.unfreeze]
          rw [thawed]
          exact ⟨s₀, wf, le_rfl, .pure rfl⟩
      | app f args =>
          cases f with
          | frozen v =>
              have thawed : (s₀.term r).unfreeze = .ok (.var v) := by
                rw [wf.below.term_app hnode, Term.unfreeze]
              have made : Gives early s₀ (var v) (· = (ofTerm (.var v) s₀).1) (ofTerm (.var v) s₀).2 :=
                intern_gives wf trivial
              rw [thawed]
              exact made.liftExcept.bindOk (noted thawed)
          | symbol c =>
              have parts : MeltsAll early s₀ (args.mapM (unfreezeWithin n)) (args.map s₀.term) := by
                refine Melts.mapM wf fun a ha s₁ wf₁ le₁ => ?_
                have lt := wf.below hnode a ha
                have small := Nat.lt_trans lt hr
                rw [← wf.below.term_of_le wf₁.below le₁ small]
                exact ih wf₁ (Nat.lt_of_lt_of_le small (size_le_of_le le₁))
                  (Nat.lt_of_lt_of_le lt (Nat.le_of_lt_succ deep))
              rw [MeltsAll] at parts
              cases inner : Term.unfreezeList (args.map s₀.term) with
              | error e =>
                  have thawed : (s₀.term r).unfreeze = .error e := by
                    rw [wf.below.term_app hnode, Term.unfreeze, inner]
                    rfl
                  rw [inner] at parts
                  rw [thawed]
                  obtain ⟨s₁, wf₁, le₁, stops⟩ := parts
                  exact ⟨s₁, wf₁, le₁, stops.bindError⟩
              | ok us =>
                  have thawed : (s₀.term r).unfreeze = .ok (.app (.symbol c) us) := by
                    rw [wf.below.term_app hnode, Term.unfreeze, inner]
                    rfl
                  rw [inner] at parts
                  rw [thawed]
                  have full := (Term.over_app_iff.1 (Term.over_of_unfreeze thawed)).2
                  have made : Gives early (ofTerms us s₀).2 (app (.symbol c) (ofTerms us s₀).1)
                      (· = (ofTerm (.app (.symbol c) us) s₀).1) (ofTerm (.app (.symbol c) us) s₀).2 :=
                    app_gives wf full
                  exact parts.bindOk (made.liftExcept.bindOk (noted thawed))

theorem unfreeze_melts (wf : s₀.WellFormed) (hr : r < s₀.size) : Melts early s₀ (unfreeze r) (s₀.term r) := by
  have deep : r < s₀.growingBound := Nat.lt_of_lt_of_le hr (Nat.le_add_right _ _)
  refine Melts.bindThe (fun s hs => ?_) (unfreezeWithin_melts wf hr deep)
  rw [growingBound, growingBound, hs.same.size]

end Store
end OrderedCompletion
