import Mathlib.Data.List.Sort
import OrderedCompletion.Proofs.Interning
import OrderedCompletion.Proofs.Matchers
import OrderedCompletion.Proofs.Parallel
import OrderedCompletion.Proofs.Position

/-! What the actions on stored terms do side by side, when the variables of one side are those of the other
under other names. -/

namespace OrderedCompletion

namespace Term

variable {a b l r : Term} {ρ : Equiv.Perm Var}

/-- Names in the same order stand in the same order. -/
theorem sortVars_map {vs : List Var} (mono : StrictMonoOn ρ {v | v ∈ vs}) :
    sortVars (vs.map ρ) = (sortVars vs).map ρ := by
  refine List.Pairwise.eq_of_mem_iff (r := (· < ·)) (sortVars_sorted _) ?_ fun w => ?_
  · refine List.pairwise_map.2 ((sortVars_sorted vs).imp_of_mem fun hv hw less => ?_)
    exact mono (mem_sortVars.1 hv) (mem_sortVars.1 hw) less
  · rw [mem_sortVars, List.mem_map, List.mem_map]
    exact exists_congr fun v => and_congr_left' mem_sortVars.symm

theorem vars_rename (mono : StrictMonoOn ρ {v | v ∈ a.vars}) : (a.rename ρ).vars = a.vars.map ρ := by
  refine List.Pairwise.eq_of_mem_iff (r := (· < ·)) vars_sorted ?_ fun w => ?_
  · exact List.pairwise_map.2 ((vars_sorted (t := a)).imp_of_mem fun hv hw less => mono hv hw less)
  · rw [mem_vars_rename, List.mem_map]
    exact exists_congr fun v => and_congr_right' eq_comm

/-- Renaming takes instances to instances and brings in no others. -/
theorem instance_rename :
    (∃ θ, (l.rename ρ).subst θ = a.rename ρ ∧ (r.rename ρ).subst θ = b.rename ρ) ↔
      ∃ θ, l.subst θ = a ∧ r.subst θ = b := by
  constructor
  · rintro ⟨θ, left, right⟩
    have back : ∀ t : Term, t.subst (fun v => (θ (ρ v)).rename ρ.symm) = ((t.rename ρ).subst θ).rename ρ.symm :=
      fun t => by rw [rename_subst, subst_rename]
    exact ⟨_, by rw [back, left, rename_symm], by rw [back, right, rename_symm]⟩
  · rintro ⟨θ, rfl, rfl⟩
    exact ⟨conjugate ρ θ, rename_subst_conjugate l, rename_subst_conjugate r⟩

end Term

open Term

namespace Store

variable {s : Store} {p t : Term} {σ : Subst} {v : Var}

/-- A match binds the variables of the pattern. -/
theorem Refines.isBound_iff (h : Refines s.Knows s.Agrees .empty (fun θ => p.subst θ = t) (some σ)) :
    σ.isBound v = true ↔ v ∈ p.vars := by
  refine ⟨fun bound => ?_, h.isBound⟩
  obtain ⟨q, hq⟩ := Option.isSome_iff_exists.1 bound
  exact h.matches.2 v q hq

end Store

namespace Parallel

variable {P P' : Parallel} {r r' q q' : Ref} {a b t : Term} {v : Var} {σ σ' : Subst} {θ : Var → Term}
variable {V : Set Var} {c : Term × Term} {e d : Equation}

theorem vars_does (h : P.Reads a r q) :
    P.Does (Store.vars r) (Store.vars q) fun P' vs vs' => vs = a.vars ∧ vs' = (a.rename P'.names).vars := by
  refine does (Store.vars_spec P.left.wellFormed h.left) (Store.vars_grows r)
    (Store.vars_spec P.right.wellFormed h.right) (Store.vars_grows q) ?_
  rintro P' vs vs' - names - ⟨rfl, -⟩ ⟨rfl, -⟩
  exact ⟨rfl, by rw [names]⟩

/-- Variables that stand in the same order are listed in the same order. -/
theorem equationVars_does (h : P.Shows c e d) : P.Does e.vars d.vars fun P' vs vs' =>
    vs = sortVars (c.1.vars ++ c.2.vars) ∧ vs' = vs.map P'.names := by
  have names : sortVars ((c.1.rename P.names).vars ++ (c.2.rename P.names).vars) =
      (sortVars (c.1.vars ++ c.2.vars)).map P.names := by
    rw [vars_rename (h.ordered.mono fun _ => .inl), vars_rename (h.ordered.mono fun _ => .inr), ← List.map_append]
    exact sortVars_map (h.ordered.mono fun _ => List.mem_append.1)
  refine does (Equation.vars_spec P.left.wellFormed ⟨h.lhs.left, h.rhs.left⟩) (Equation.vars_grows e)
    (Equation.vars_spec P.right.wellFormed ⟨h.lhs.right, h.rhs.right⟩) (Equation.vars_grows d) ?_
  rintro P' vs vs' - same - ⟨rfl, -⟩ ⟨rfl, -⟩
  exact ⟨rfl, same ▸ names⟩

/-- Substitutions that do the same to variables of a set. -/
structure Couples (P : Parallel) (V : Set Var) (θ : Var → Term) (σ σ' : Subst) : Prop where
  left : P.left.store.Binds σ θ
  right : ∃ θ', P.right.store.Binds σ' θ' ∧ ∀ v ∈ V, θ' (P.names v) = (θ v).rename P.names
  inside : V ⊆ P.known
  known : ∀ v ∈ V, ∀ w ∈ (θ v).vars, w ∈ P.known

theorem Couples.mono (h : P.Couples V θ σ σ') (ext : P.Extends P') : P'.Couples V θ σ σ' where
  left := h.left.mono P.left.wellFormed P'.left.wellFormed ext.left.store
  right := by
    obtain ⟨θ', binds, same⟩ := h.right
    refine ⟨θ', binds.mono P.right.wellFormed P'.right.wellFormed ext.right.store, fun v hv => ?_⟩
    rw [ext.names v (h.inside hv), same v hv]
    exact (rename_congr fun w hw => ext.names w (h.known v hv w hw)).symm
  inside := h.inside.trans ext.known
  known := fun v hv w hw => ext.known (h.known v hv w hw)

theorem couples_empty (inside : V ⊆ P.known) : P.Couples V .var .empty .empty where
  left := Store.binds_empty
  right := ⟨.var, Store.binds_empty, fun _ _ => rfl⟩
  inside := inside
  known := by
    rintro v hv w hw
    rw [mem_vars_var.1 hw]
    exact inside hv

theorem Couples.bind (h : P.Couples V θ σ σ') (reads : P.Reads t r q) :
    P.Couples V (fun w => if w = v then t else θ w) (σ.bind v r) (σ'.bind (P.names v) q) where
  left := h.left.bind reads.left
  right := by
    obtain ⟨θ', binds, same⟩ := h.right
    refine ⟨_, binds.bind reads.right, fun w hw => ?_⟩
    by_cases here : w = v
    · rw [here, if_pos rfl, if_pos rfl]
    · rw [if_neg here, if_neg fun names => here (P.names.injective names), same w hw]
  inside := h.inside
  known := by
    intro w hw x hx
    by_cases here : w = v
    · rw [if_pos here] at hx
      exact reads.known x hx
    · rw [if_neg here] at hx
      exact h.known w hw x hx

theorem apply_does (couples : P.Couples V θ σ σ') (h : P.Reads a r q) (inside : ∀ v ∈ a.vars, v ∈ V) :
    P.Does (Store.apply σ r) (Store.apply σ' q) fun P' r' q' => P'.Reads (a.subst θ) r' q' := by
  obtain ⟨θ', binds, same⟩ := couples.right
  refine does (Store.apply_spec P.left.wellFormed couples.left h.left) (Store.apply_grows σ r)
    (Store.apply_spec P.right.wellFormed binds h.right) (Store.apply_grows σ' q) ?_
  intro P' r' q' ext names known left right
  refine ⟨left, ?_, fun v hv => ?_⟩
  · rw [names, subst_rename]
    rw [rename_subst] at right
    rwa [subst_congr fun v hv => (same v (inside v hv)).symm]
  · obtain ⟨w, hw, hv⟩ := mem_vars_subst.1 hv
    exact ext.known (couples.known w (inside w hw) v hv)

theorem equationApply_does (couples : P.Couples V θ σ σ') (h : P.Shows c e d)
    (inside : ∀ v, v ∈ c.1.vars ∨ v ∈ c.2.vars → v ∈ V) :
    P.Does (e.apply σ) (d.apply σ') fun P' e' d' =>
      P'.Reads (c.1.subst θ) e'.lhs d'.lhs ∧ P'.Reads (c.2.subst θ) e'.rhs d'.rhs := by
  refine (apply_does couples h.lhs fun v hv => inside v (.inl hv)).bind fun P₁ x y ext₁ hx => ?_
  refine (apply_does (couples.mono ext₁) (h.rhs.mono ext₁) fun v hv => inside v (.inr hv)).bind
    fun P₂ x' y' ext₂ hx' => ?_
  exact .pure ⟨hx.mono ext₂, hx'⟩

/-- Either no substitution is found on both sides, or two that do the same. -/
theorem match_does (h : P.Reads a r q) (h' : P.Reads t r' q') :
    P.Does (Store.match? r r').run (Store.match? q q').run fun P' => Option.Rel fun σ σ' =>
      ∃ θ, P'.Couples P.known θ σ σ' ∧ a.subst θ = t ∧
        ∀ v ∈ P.known, (σ.isBound v = true ↔ v ∈ a.vars) ∧ σ'.isBound (P'.names v) = σ.isBound v := by
  refine does (Store.match?_spec P.left.wellFormed h.left h'.left) (Store.matchPairs?_grows _)
    (Store.match?_spec P.right.wellFormed h.right h'.right) (Store.matchPairs?_grows _) ?_
  rintro P' found found' ext names known ⟨-, left⟩ ⟨-, right⟩
  cases found with
  | none =>
      cases found' with
      | none => exact .none
      | some σ' =>
          obtain ⟨θ, hθ, -⟩ := instance_rename.1 ⟨_, right.solves_image, right.solves_image⟩
          exact absurd hθ (left θ (Store.agrees_empty θ))
  | some σ =>
      cases found' with
      | none =>
          obtain ⟨θ', hθ', -⟩ := instance_rename.2 ⟨_, left.solves_image, left.solves_image⟩
          exact absurd hθ' (right θ' (Store.agrees_empty θ'))
      | some σ' =>
          have takes := left.solves_image
          have takes' := right.solves_image
          have bound' : ∀ v, σ'.isBound (P'.names v) = true ↔ v ∈ a.vars := fun v => by
            rw [Store.Refines.isBound_iff right, names, mem_vars_rename]
            exact ⟨fun ⟨w, hw, same⟩ => P.names.injective same ▸ hw, fun hv => ⟨v, hv, rfl⟩⟩
          have bound : ∀ v, σ.isBound v = true ↔ v ∈ a.vars := fun _ => Store.Refines.isBound_iff left
          refine .some ⟨_, ⟨left.1.binds, ⟨_, right.1.binds, fun v _ => ?_⟩, ext.known, fun v hv w hw => ?_⟩, takes,
            fun v _ => ⟨bound v, Bool.eq_iff_iff.2 ((bound' v).trans (bound v).symm)⟩⟩
          · by_cases hv : v ∈ a.vars
            · rw [rename_subst, ← takes, subst_rename] at takes'
              rw [names]
              exact eq_of_subst_eq takes' v hv
            · rw [Store.image_free (Subst.find?_eq_none.2 (eq_false_of_ne_true fun yes => hv ((bound v).1 yes))),
                Store.image_free (Subst.find?_eq_none.2 (eq_false_of_ne_true fun yes => hv ((bound' v).1 yes))),
                rename_var]
          · by_cases bv : v ∈ a.vars
            · exact ext.known (h'.known w (takes ▸ mem_vars_subst.2 ⟨v, bv, hw⟩))
            · rw [Store.image_free (Subst.find?_eq_none.2 (eq_false_of_ne_true fun yes => bv ((bound v).1 yes)))] at hw
              exact ext.known (mem_vars_var.1 hw ▸ hv)

/-- Of made-up variables the later ones are bound on both sides. -/
theorem unify_does (h : P.Reads a r q) (h' : P.Reads b r' q') (drawn : V ⊆ P.Drawn) (ha : ∀ v ∈ a.vars, v ∈ V)
    (hb : ∀ v ∈ b.vars, v ∈ V) :
    P.Does (Store.unify? r r').run (Store.unify? q q').run fun P' => Option.Rel fun σ σ' =>
      ∃ θ, P'.Couples V θ σ σ' ∧ ∀ v ∈ V, ∀ w ∈ (θ v).vars, w ∈ V := by
  refine does (Store.unify?_least P.left.wellFormed h.left h'.left) (Store.unify?_grows r r')
    (Store.unify?_least P.right.wellFormed h.right h'.right) (Store.unify?_grows q q') ?_
  rintro P' found found' ext names known left right
  cases found with
  | none =>
      cases found' with
      | none => exact .none
      | some σ' =>
          obtain ⟨θ, -, mgu, -⟩ := right
          have same := mgu.unifies
          rw [rename_subst, rename_subst] at same
          exact absurd same (left _)
  | some σ =>
      obtain ⟨θ, binds, mgu, least⟩ := left
      cases found' with
      | none => exact absurd (mgu.rename P.names).unifies (right _)
      | some σ' =>
          obtain ⟨θ', binds', mgu', least'⟩ := right
          have ordered : MonotoneOn P.names {v | v ∈ a.vars ∨ v ∈ b.vars} :=
            (P.mono.mono fun v hv => drawn (hv.elim (ha v) (hb v))).monotoneOn
          obtain rfl := mgu'.eq_of_least (mgu.rename P.names) least' (mgu.least_rename least ordered)
          have inside : ∀ v ∈ V, ∀ w ∈ (θ v).vars, w ∈ V := by
            intro v hv w hw
            rcases mgu.vars hw with rfl | hw
            · exact hv
            · exact hw.elim (ha w) (hb w)
          have known : V ⊆ P'.known := fun v hv => ext.known (drawn hv).1
          have bound : ∀ v ∈ V, ∀ w ∈ (θ v).vars, w ∈ P'.known := fun v hv w hw => known (inside v hv w hw)
          refine .some ⟨θ, ⟨binds, ⟨_, binds', fun v _ => ?_⟩, known, bound⟩, inside⟩
          rw [names, conjugate_apply]

variable {u : Term} {p : Position}

theorem replaceAt_does (h : P.Reads a r q) (h' : P.Reads b r' q') (at_ : a.subtermAt p = some u) :
    P.Does (Store.replaceAt r p r').run (Store.replaceAt q p q').run fun P' out out' =>
      ∃ x y, out = .ok x ∧ out' = .ok y ∧ P'.Reads (Term.replaceAt b a p) x y := by
  refine does (Store.replaceAt_spec P.left.wellFormed h.left h'.left at_) (Store.replaceAt_grows r p r')
    (Store.replaceAt_spec P.right.wellFormed h.right h'.right (subtermAt_subst at_)) (Store.replaceAt_grows q p q') ?_
  rintro P' _ _ ext names known ⟨x, rfl, left⟩ ⟨y, rfl, right⟩
  refine ⟨x, y, rfl, rfl, left, ?_, fun v hv => ?_⟩
  · rw [names, rename, replaceAt_subst at_]
    exact right
  · exact (mem_vars_replaceAt hv).elim (fun hv => ext.known (h.known v hv)) fun hv => ext.known (h'.known v hv)

/-- The same place in terms that correspond. -/
def TwinPlace (P : Parallel) (a : Term) (x y : Position × Ref) : Prop :=
  x.1 = y.1 ∧ ∃ u, a.subtermAt x.1 = some u ∧ P.Reads u x.2 y.2

/-- The same argument of applications that correspond. -/
structure TwinArg (P : Parallel) (ts : List Term) (r q : Ref) (x y : Ref × Nat) : Prop where
  index : x.2 = y.2
  left : x.1 < r
  right : y.1 < q
  reads : ∃ t, ts[x.2]? = some t ∧ P.Reads t x.1 y.1

theorem Reads.args {f : Head} {ts : List Term} (h : P.Reads (.app f ts) r q) :
    ∃ rs qs, P.left.store.node? r = some (.app f rs) ∧ P.right.store.node? q = some (.app f qs) ∧
      List.Forall₂ (P.TwinArg ts r q) rs.zipIdx qs.zipIdx := by
  obtain ⟨rs, node, denote⟩ := h.left.node_app P.left.wellFormed
  have right := h.right
  rw [rename_app] at right
  obtain ⟨qs, node', denote'⟩ := right.node_app P.right.wellFormed
  refine ⟨rs, qs, node, node', List.forall₂_iff_get.2 ⟨?_, fun i hi hi' => ?_⟩⟩
  · rw [List.length_zipIdx, List.length_zipIdx, denote.length_eq, denote'.length_eq, List.length_map]
  · rw [List.length_zipIdx] at hi hi'
    have less : i < ts.length := denote.length_eq ▸ hi
    have known : ∀ v ∈ (ts[i]).vars, v ∈ P.known :=
      fun v hv => h.known v (mem_vars_app.2 ⟨_, List.getElem_mem less, hv⟩)
    have here := (List.forall₂_iff_get.1 denote).2 i hi less
    have there := (List.forall₂_iff_get.1 denote').2 i hi' (by rwa [List.length_map])
    simp only [List.get_eq_getElem, List.getElem_zipIdx, List.getElem_map, Nat.zero_add] at here there ⊢
    exact ⟨rfl, P.left.wellFormed.below node _ (List.getElem_mem hi),
      P.right.wellFormed.below node' _ (List.getElem_mem hi'), ts[i], List.getElem?_eq_getElem less, here, there, known⟩

theorem TwinArg.unindexed {ts : List Term} {rs qs : List Ref}
    (h : List.Forall₂ (P.TwinArg ts r q) rs.zipIdx qs.zipIdx) :
    List.Forall₂ (fun x y => y < q ∧ ∃ t ∈ ts, P.Reads t x y) rs qs := by
  have firsts : List.Forall₂ (fun x y => y < q ∧ ∃ t ∈ ts, P.Reads t x y) (rs.zipIdx.map Prod.fst)
      (qs.zipIdx.map Prod.fst) :=
    List.rel_map (fun _ _ h => ⟨h.right, h.reads.imp fun _ h => ⟨List.mem_of_getElem? h.1, h.2⟩⟩) h
  rwa [List.zipIdx_map_fst, List.zipIdx_map_fst] at firsts

theorem appPositionsWithin_twin {n m : Nat} (h : P.Reads a r q) (hr : r < n) (hq : q < m) :
    List.Forall₂ (P.TwinPlace a) (P.left.store.appPositionsWithin n r) (P.right.store.appPositionsWithin m q) := by
  induction a using Term.induct generalizing n m r q with
  | var v =>
      obtain ⟨n, rfl⟩ := Nat.exists_eq_add_one_of_ne_zero (Nat.ne_zero_of_lt hr)
      obtain ⟨m, rfl⟩ := Nat.exists_eq_add_one_of_ne_zero (Nat.ne_zero_of_lt hq)
      rw [Store.appPositionsWithin, Store.appPositionsWithin, h.left.node_var P.left.wellFormed,
        h.right.node_var P.right.wellFormed]
      exact .nil
  | app f ts ih =>
      obtain ⟨n, rfl⟩ := Nat.exists_eq_add_one_of_ne_zero (Nat.ne_zero_of_lt hr)
      obtain ⟨m, rfl⟩ := Nat.exists_eq_add_one_of_ne_zero (Nat.ne_zero_of_lt hq)
      obtain ⟨rs, qs, node, node', args⟩ := h.args
      rw [Store.appPositionsWithin, Store.appPositionsWithin, node, node']
      refine .cons ⟨rfl, _, subtermAt_nil, h⟩ (List.rel_flatMap args ?_)
      rintro ⟨x, i⟩ ⟨y, j⟩ ⟨rfl, less, less', t, ht, reads⟩
      refine List.rel_map ?_ (ih t (List.mem_of_getElem? ht) reads (Nat.lt_of_lt_of_le less (Nat.le_of_lt_succ hr))
        (Nat.lt_of_lt_of_le less' (Nat.le_of_lt_succ hq)))
      rintro ⟨p, x'⟩ ⟨p', y'⟩ ⟨rfl, u, at_, reads'⟩
      exact ⟨rfl, u, (subtermAt_cons ht).trans at_, reads'⟩
  | missing ref => exact absurd (h.left.over_full P.left.wellFormed) not_over_missing

/-- Overlaps that correspond, by substitutions that stay within a set of variables. -/
def TwinOverlap (P : Parallel) (V : Set Var) (g : Term) (x y : Overlap) : Prop :=
  x.position = y.position ∧ (∃ u, g.subtermAt x.position = some u) ∧
    ∃ θ, P.Couples V θ x.subst y.subst ∧ ∀ v ∈ V, ∀ w ∈ (θ v).vars, w ∈ V

variable {g : Term} {x y : Overlap}

theorem TwinOverlap.mono (h : P.TwinOverlap V g x y) (ext : P.Extends P') : P'.TwinOverlap V g x y := by
  obtain ⟨same, there, θ, couples, inside⟩ := h
  exact ⟨same, there, θ, couples.mono ext, inside⟩

theorem TwinPlace.mono {x y : Position × Ref} (h : P.TwinPlace a x y) (ext : P.Extends P') : P'.TwinPlace a x y := by
  obtain ⟨same, u, there, reads⟩ := h
  exact ⟨same, u, there, reads.mono ext⟩

theorem overlapsAt_does {places places' : List (Position × Ref)} (h : P.Reads a r q) (drawn : V ⊆ P.Drawn)
    (ha : ∀ v ∈ a.vars, v ∈ V) (hg : ∀ v ∈ g.vars, v ∈ V) (all : List.Forall₂ (P.TwinPlace g) places places') :
    P.Does (Store.overlapsAt r places) (Store.overlapsAt q places') fun P' =>
      List.Forall₂ (P'.TwinOverlap V g) := by
  induction places generalizing P places' with
  | nil =>
      cases all
      exact .pure .nil
  | cons x places ih =>
      cases all with
      | @cons _ y _ places' here rest =>
      obtain ⟨position, x⟩ := x
      obtain ⟨_, y⟩ := y
      obtain ⟨rfl, u, at_, reads⟩ := here
      refine (unify_does reads h drawn (fun v hv => hg v (mem_vars_of_subtermAt at_ hv)) ha).bind ?_
      intro P₁ found found' ext₁ both
      have onward := ih (h.mono ext₁) (drawn.trans ext₁.drawn) (rest.imp fun _ _ h => h.mono ext₁)
      cases both with
      | none => exact onward
      | some both =>
          obtain ⟨θ, couples, inside⟩ := both
          refine onward.bind fun P₂ more more' ext₂ both => .pure (.cons ?_ both)
          exact ⟨rfl, ⟨u, at_⟩, θ, couples.mono ext₂, inside⟩

theorem overlaps_does (h : P.Reads g r q) (h' : P.Reads a r' q') (drawn : V ⊆ P.Drawn) (hg : ∀ v ∈ g.vars, v ∈ V)
    (ha : ∀ v ∈ a.vars, v ∈ V) :
    P.Does (Store.overlaps r r') (Store.overlaps q q') fun P' => List.Forall₂ (P'.TwinOverlap V g) := by
  have all : List.Forall₂ (P.TwinPlace g) (P.left.store.appPositions r) (P.right.store.appPositions q) :=
    appPositionsWithin_twin h (Nat.lt_succ_of_lt h.left.1) (Nat.lt_succ_of_lt h.right.1)
  exact overlapsAt_does h' drawn ha hg all

section Subsumption
variable {e' d' : Equation}

/-- On both sides the same equations are instances of each other. -/
theorem subsumes_does (h : P.TwinEq e d) (h' : P.TwinEq e' d') :
    P.Does (e.subsumes e') (d.subsumes d') fun _ yes yes' => yes' = yes := by
  obtain ⟨c, h⟩ := h
  obtain ⟨c', h'⟩ := h'
  refine does (Equation.subsumes_spec P.left.wellFormed ⟨h.lhs.left, h.rhs.left⟩ ⟨h'.lhs.left, h'.rhs.left⟩)
    (Equation.subsumes_grows e e') (Equation.subsumes_spec P.right.wellFormed ⟨h.lhs.right, h.rhs.right⟩
      ⟨h'.lhs.right, h'.rhs.right⟩) (Equation.subsumes_grows d d') ?_
  rintro P' yes yes' - - - ⟨-, left⟩ ⟨-, right⟩
  exact Bool.eq_iff_iff.2 (right.trans (instance_rename.trans left.symm))

theorem subsumesEither_does (h : P.TwinEq e d) (h' : P.TwinEq e' d') :
    P.Does (e.subsumesEither e') (d.subsumesEither d') fun _ yes yes' => yes' = yes := by
  refine (subsumes_does h h').bind ?_
  rintro P₁ _ yes ext rfl
  cases yes with
  | true => exact .pure rfl
  | false => exact subsumes_does (h.mono ext) (h'.mono ext).reversed

/-- Filters of lists whose elements correspond. -/
theorem Does.filterM {α α' : Type} {p : α → StoreM Bool} {p' : α' → StoreM Bool} {as : List α} {bs : List α'}
    {S : Parallel → α → α' → Prop} (lasts : ∀ P₁ P₂ a b, P₁.Extends P₂ → S P₁ a b → S P₂ a b)
    (h : List.Forall₂ (S P) as bs)
    (step : ∀ P' a b, P.Extends P' → S P' a b → P'.Does (p a) (p' b) fun _ yes yes' => yes' = yes) :
    P.Does (as.filterM p) (bs.filterM p') fun P' => List.Forall₂ (S P') := by
  suffices gen : ∀ P' acc acc', P.Extends P' → List.Forall₂ (S P') acc acc' →
      P'.Does (as.filterAuxM p acc) (bs.filterAuxM p' acc') fun P' => List.Forall₂ (S P') from
    (gen P [] [] (.refl P) .nil).bind fun P' _ _ _ all => .pure (List.rel_reverse all)
  induction h with
  | nil => exact fun P' acc acc' _ all => .pure all
  | cons here _ ih =>
      intro P' acc acc' ext all
      have here' := lasts P P' _ _ ext here
      rw [List.filterAuxM, List.filterAuxM]
      refine (step P' _ _ ext here').bind ?_
      rintro P₁ _ yes ext₁ rfl
      have all₁ := all.imp fun _ _ h => lasts P' P₁ _ _ ext₁ h
      cases yes with
      | true => exact ih P₁ _ _ (ext.trans ext₁) (.cons (lasts P' P₁ _ _ ext₁ here') all₁)
      | false => exact ih P₁ _ _ (ext.trans ext₁) all₁

theorem filterSubsumed_does {worklist worklist' candidates candidates' : List Equation}
    (h : List.Forall₂ P.TwinEq worklist worklist') (h' : List.Forall₂ P.TwinEq candidates candidates') :
    P.Does (Engine.filterSubsumed worklist candidates) (Engine.filterSubsumed worklist' candidates') fun P' =>
      List.Forall₂ P'.TwinEq := by
  refine Does.filterM (S := TwinEq) (fun _ _ _ _ ext h => h.mono ext) h' fun P₁ c c' ext hc => ?_
  refine (Does.anyM (S := TwinEq) (fun _ _ _ ext h => h.mono ext) (h.imp fun _ _ h => h.mono ext)
    fun P₂ g g' ext₂ hg => subsumes_does hg (hc.mono ext₂)).bind ?_
  rintro P₂ _ yes ext₂ rfl
  exact .pure rfl

theorem removeSubsumed_does {kept kept' eqs eqs' : List Equation} (h : List.Forall₂ P.TwinEq kept kept')
    (h' : List.Forall₂ P.TwinEq eqs eqs') :
    P.Does (Engine.removeSubsumed kept eqs) (Engine.removeSubsumed kept' eqs') fun P' =>
      List.Forall₂ P'.TwinEq := by
  induction eqs generalizing P kept kept' eqs' with
  | nil =>
      cases h'
      exact .pure h
  | cons eq eqs ih =>
      cases h' with
      | @cons _ eq' _ eqs' here rest =>
      have others : List.Forall₂ P.TwinEq ((kept ++ eq :: eqs).filter (· ≠ eq))
          ((kept' ++ eq' :: eqs').filter (· ≠ eq')) := by
        refine List.rel_filter ?_ (List.rel_append h (.cons here rest))
        intro e d h
        simpa using not_congr (h.eq_iff here)
      rw [Engine.removeSubsumed, Engine.removeSubsumed]
      refine (Does.anyM (S := TwinEq) (fun _ _ _ ext h => h.mono ext) others
        fun P₁ g g' ext hg => subsumesEither_does hg (here.mono ext)).bind ?_
      rintro P₁ _ yes ext rfl
      have kept₁ := h.imp fun _ _ h => h.mono ext
      have rest₁ := rest.imp fun _ _ h => h.mono ext
      cases yes with
      | true => exact ih kept₁ rest₁
      | false => exact ih (List.rel_append kept₁ (.cons (here.mono ext) .nil)) rest₁

end Subsumption

end Parallel

section Lists
variable {R : Equation → Equation → Prop} {es ds es' ds' : List Equation} {e d : Equation} (unique : Relator.BiUnique R)
include unique

theorem addNew_rel (here : R e d) (h : List.Forall₂ R es ds) : List.Forall₂ R (addNew es e) (addNew ds d) := by
  rw [addNew, addNew]
  by_cases old : e ∈ es
  · rwa [if_pos old, if_pos ((List.rel_mem unique here h).1 old)]
  · rw [if_neg old, if_neg fun old' => old ((List.rel_mem unique here h).2 old')]
    exact List.rel_append h (.cons here .nil)

theorem foldl_addNew_rel (h : List.Forall₂ R es ds) (h' : List.Forall₂ R es' ds') :
    List.Forall₂ R (es'.foldl addNew es) (ds'.foldl addNew ds) :=
  List.rel_foldl (R := R) (P := List.Forall₂ R) (fun _ _ h _ _ here => addNew_rel unique here h) h h'

theorem addFront_rel (here : R e d) (h : List.Forall₂ R es ds) :
    List.Forall₂ R (Engine.addFront es e) (Engine.addFront ds d) := by
  rw [Engine.addFront, Engine.addFront]
  by_cases old : e ∈ es
  · rwa [if_pos old, if_pos ((List.rel_mem unique here h).1 old)]
  · rw [if_neg old, if_neg fun old' => old ((List.rel_mem unique here h).2 old')]
    exact .cons here h

theorem remove_rel (here : R e d) (h : List.Forall₂ R es ds) :
    List.Forall₂ R (Engine.remove es e) (Engine.remove ds d) := by
  refine List.rel_filter ?_ h
  intro e' d' there
  simpa using not_congr (Relator.rel_eq unique there here)

end Lists
end OrderedCompletion
