import Mathlib.Logic.Relation
import OrderedCompletion.Term.Error

/-! Terms as trees: substitution, variables, depth, signatures and positions. -/

namespace OrderedCompletion

theorem mem_insertVar {v w : Var} {vs : List Var} : v ∈ insertVar w vs ↔ v = w ∨ v ∈ vs := by
  induction vs with
  | nil => simp [insertVar]
  | cons u us ih =>
      rw [insertVar]
      split
      · simp
      · split
        · rename_i same
          subst same
          simp
        · rw [List.mem_cons, List.mem_cons, ih, or_left_comm]

@[simp] theorem mem_sortVars {v : Var} {vs : List Var} : v ∈ sortVars vs ↔ v ∈ vs := by
  induction vs with
  | nil => simp [sortVars]
  | cons w ws ih =>
      change v ∈ insertVar w (sortVars ws) ↔ _
      rw [mem_insertVar, ih, List.mem_cons]

theorem insertVar_sorted {v : Var} {vs : List Var} (h : vs.Pairwise (· < ·)) :
    (insertVar v vs).Pairwise (· < ·) := by
  induction vs with
  | nil => simp [insertVar]
  | cons w ws ih =>
      obtain ⟨low, sorted⟩ := List.pairwise_cons.1 h
      rw [insertVar]
      split
      · rename_i lt
        refine List.pairwise_cons.2 ⟨fun u hu => ?_, h⟩
        rcases List.mem_cons.1 hu with rfl | hu
        · exact lt
        · exact Nat.lt_trans lt (low u hu)
      · rename_i notLt
        split
        · exact h
        · rename_i other
          refine List.pairwise_cons.2 ⟨fun u hu => ?_, ih sorted⟩
          rcases mem_insertVar.1 hu with rfl | hu
          · exact Nat.lt_of_le_of_ne (Nat.le_of_not_lt notLt) (Ne.symm other)
          · exact low u hu

theorem sortVars_sorted (vs : List Var) : (sortVars vs).Pairwise (· < ·) := by
  induction vs with
  | nil => exact .nil
  | cons v vs ih => exact insertVar_sorted ih

theorem sortVars_nodup (vs : List Var) : (sortVars vs).Nodup :=
  (sortVars_sorted vs).imp Nat.ne_of_lt

namespace Term

mutual
/-- Replaces every variable at once. -/
def subst (θ : Var → Term) : Term → Term
  | .var v => θ v
  | .app f args => .app f (substList θ args)
  | .missing r => .missing r

def substList (θ : Var → Term) : List Term → List Term
  | [] => []
  | t :: ts => subst θ t :: substList θ ts
end

mutual
/-- The variables in increasing order, each of them once. -/
def vars : Term → List Var
  | .var v => [v]
  | .app _ args => sortVars (varsList args)
  | .missing _ => []

def varsList : List Term → List Var
  | [] => []
  | t :: ts => vars t ++ varsList ts
end

mutual
/-- The number of nodes on the longest path from the root. -/
def depth : Term → Nat
  | .var _ => 1
  | .app _ args => depthList args + 1
  | .missing _ => 1

def depthList : List Term → Nat
  | [] => 0
  | t :: ts => max (depth t) (depthList ts)
end

section
variable {θ η : Var → Term} {f : Head} {args : List Term} {t : Term} {v : Var}

theorem substList_eq_map : substList θ args = args.map (subst θ) := by
  induction args with
  | nil => rfl
  | cons t ts ih => rw [substList, ih, List.map_cons]

theorem varsList_eq_flatten : varsList args = (args.map vars).flatten := by
  induction args with
  | nil => rfl
  | cons t ts ih => rw [varsList, ih, List.map_cons, List.flatten_cons]

@[simp] theorem subst_var : (var v).subst θ = θ v := rfl

@[simp] theorem subst_app : (app f args).subst θ = .app f (args.map (subst θ)) := by
  rw [subst, substList_eq_map]

@[simp] theorem subst_missing {r : Nat} : (missing r).subst θ = .missing r := rfl

@[simp] theorem mem_vars_var {w : Var} : v ∈ (var w).vars ↔ v = w := List.mem_singleton

@[simp] theorem mem_vars_app : v ∈ (app f args).vars ↔ ∃ a ∈ args, v ∈ a.vars := by
  rw [vars, mem_sortVars, varsList_eq_flatten, ← List.flatMap_def, List.mem_flatMap]

@[simp] theorem vars_missing {r : Nat} : (missing r).vars = [] := rfl

theorem depth_lt_of_mem {a : Term} (h : a ∈ args) : a.depth < (app f args).depth := by
  have bounded : a.depth ≤ depthList args := by
    induction args with
    | nil => cases h
    | cons t ts ih =>
        rw [depthList]
        rcases List.mem_cons.1 h with rfl | later
        · exact Nat.le_max_left _ _
        · exact Nat.le_trans (ih later) (Nat.le_max_right _ _)
  exact Nat.lt_succ_of_le bounded

theorem depth_app_le {n : Nat} (h : ∀ a ∈ args, a.depth ≤ n) : (app f args).depth ≤ n + 1 := by
  have bounded : depthList args ≤ n := by
    induction args with
    | nil => exact Nat.zero_le n
    | cons t ts ih =>
        rw [depthList]
        exact Nat.max_le.2 ⟨h t (by simp), ih fun a ha => h a (List.mem_cons_of_mem _ ha)⟩
  exact Nat.succ_le_succ bounded

theorem depth_pos : 0 < t.depth := by
  cases t <;> simp [depth]

theorem subst_congr (h : ∀ v ∈ t.vars, θ v = η v) : t.subst θ = t.subst η := by
  induction t using Term.induct with
  | var v => exact h v (by simp)
  | app f args ih =>
      rw [subst_app, subst_app]
      congr 1
      refine List.map_congr_left fun a ha => ih a ha fun v hv => ?_
      exact h v (mem_vars_app.2 ⟨a, ha, hv⟩)
  | missing r => rfl

/-- A substitution is seen on the variables of a term. -/
theorem eq_of_subst_eq (h : t.subst θ = t.subst η) : ∀ v ∈ t.vars, θ v = η v := by
  induction t using Term.induct with
  | var w =>
      intro v hv
      rw [mem_vars_var] at hv
      rw [hv]
      exact h
  | app f args ih =>
      intro v hv
      obtain ⟨a, ha, hva⟩ := mem_vars_app.1 hv
      simp only [subst_app, Term.app.injEq, true_and] at h
      exact ih a ha (List.map_inj_left.1 h a ha) v hva
  | missing r =>
      intro v hv
      simp at hv

@[simp] theorem subst_self : t.subst .var = t := by
  induction t using Term.induct with
  | var v => rfl
  | app f args ih =>
      rw [subst_app, List.map_congr_left ih, List.map_id']
  | missing r => rfl

theorem subst_eq_self (h : ∀ v ∈ t.vars, θ v = .var v) : t.subst θ = t := by
  rw [subst_congr (η := .var) h, subst_self]

theorem subst_subst : (t.subst θ).subst η = t.subst fun v => (θ v).subst η := by
  induction t using Term.induct with
  | var v => rfl
  | app f args ih =>
      simp only [subst_app, List.map_map, Term.app.injEq, true_and]
      exact List.map_congr_left fun a ha => ih a ha
  | missing r => rfl

theorem mem_vars_subst : v ∈ (t.subst θ).vars ↔ ∃ w ∈ t.vars, v ∈ (θ w).vars := by
  induction t using Term.induct with
  | var w => simp
  | app f args ih =>
      simp only [subst_app, mem_vars_app, List.mem_map]
      constructor
      · rintro ⟨_, ⟨a, ha, rfl⟩, hv⟩
        obtain ⟨w, hw, hvw⟩ := (ih a ha).1 hv
        exact ⟨w, ⟨a, ha, hw⟩, hvw⟩
      · rintro ⟨w, ⟨a, ha, hw⟩, hvw⟩
        exact ⟨a.subst θ, ⟨a, ha, rfl⟩, (ih a ha).2 ⟨w, hw, hvw⟩⟩
  | missing r => simp

theorem depth_le_depth_subst (h : v ∈ t.vars) : (θ v).depth ≤ (t.subst θ).depth := by
  induction t using Term.induct with
  | var w =>
      rw [mem_vars_var] at h
      rw [h]
      exact Nat.le_refl _
  | app f args ih =>
      obtain ⟨a, ha, hv⟩ := mem_vars_app.1 h
      rw [subst_app]
      exact Nat.le_trans (ih a ha hv) (Nat.le_of_lt (depth_lt_of_mem (List.mem_map_of_mem ha)))
  | missing r => simp at h

/-- A variable below the root stands for less than the whole term. -/
theorem depth_lt_depth_subst_app (h : v ∈ (app f args).vars) :
    (θ v).depth < ((app f args).subst θ).depth := by
  obtain ⟨a, ha, hv⟩ := mem_vars_app.1 h
  rw [subst_app]
  exact Nat.lt_of_le_of_lt (depth_le_depth_subst hv) (depth_lt_of_mem (List.mem_map_of_mem ha))

theorem depth_subst_le {n : Nat} (h : ∀ v ∈ t.vars, (θ v).depth ≤ n + 1) :
    (t.subst θ).depth ≤ t.depth + n := by
  induction t using Term.induct with
  | var v =>
      have := h v (by simp)
      simp only [subst_var, depth]
      omega
  | app f args ih =>
      rw [subst_app]
      have bounded : ∀ b ∈ args.map (subst θ), b.depth ≤ depthList args + n := by
        intro b hb
        obtain ⟨a, ha, rfl⟩ := List.mem_map.1 hb
        have deep := ih a ha fun v hv => h v (mem_vars_app.2 ⟨a, ha, hv⟩)
        have below : a.depth < depthList args + 1 := depth_lt_of_mem (f := f) ha
        omega
      have whole := depth_app_le (f := f) bounded
      have same : (app f args).depth = depthList args + 1 := rfl
      omega
  | missing r => exact Nat.le_add_right _ _

end

/-- A term without variables. -/
def IsGround (t : Term) : Prop := t.vars = []

theorem IsGround.arg {f : Head} {args : List Term} {a : Term} (h : (app f args).IsGround) (ha : a ∈ args) :
    a.IsGround := by
  rw [IsGround, List.eq_nil_iff_forall_not_mem] at h ⊢
  intro v hv
  exact h v (mem_vars_app.2 ⟨a, ha, hv⟩)

theorem IsGround.subst_eq {t : Term} (h : t.IsGround) (θ : Var → Term) : t.subst θ = t := by
  have none : t.vars = [] := h
  exact subst_eq_self fun v hv => by simp [none] at hv

end Term

/-- The heads that may be used, each with the numbers of arguments that it may have. -/
abbrev Signature := Head → Nat → Prop

/-- All heads with all numbers of arguments. -/
def Signature.full : Signature := fun _ _ => True

namespace Term

/-- Every node is a variable or an application that the signature allows. -/
inductive Over (sig : Signature) : Term → Prop
  | var (v : Var) : Over sig (.var v)
  | app {f : Head} {args : List Term} : sig f args.length → (∀ a ∈ args, Over sig a) →
      Over sig (.app f args)

section
variable {sig : Signature} {θ : Var → Term} {f : Head} {args : List Term} {s t : Term}

theorem over_app_iff : (app f args).Over sig ↔ sig f args.length ∧ ∀ a ∈ args, a.Over sig := by
  constructor
  · intro h
    cases h with
    | app known inSig => exact ⟨known, inSig⟩
  · exact fun h => .app h.1 h.2

theorem not_over_missing {r : Nat} : ¬ (missing r).Over sig := by
  intro h
  cases h

theorem Over.subst (ht : t.Over sig) (hθ : ∀ v ∈ t.vars, (θ v).Over sig) :
    (t.subst θ).Over sig := by
  induction ht with
  | var v => exact hθ v (by simp)
  | @app f args known _ ih =>
      rw [subst_app, over_app_iff, List.length_map]
      refine ⟨known, fun b hb => ?_⟩
      obtain ⟨a, ha, rfl⟩ := List.mem_map.1 hb
      exact ih a ha fun v hv => hθ v (mem_vars_app.2 ⟨a, ha, hv⟩)

/-- What a substitution puts in for a variable of a term over a signature is over it as well. -/
theorem Over.of_mem_vars {v : Var} (h : (t.subst θ).Over sig) (hv : v ∈ t.vars) :
    (θ v).Over sig := by
  induction t using Term.induct with
  | var w =>
      rw [mem_vars_var] at hv
      rw [hv]
      exact h
  | app f args ih =>
      obtain ⟨a, ha, hva⟩ := mem_vars_app.1 hv
      rw [subst_app, over_app_iff] at h
      exact ih a ha (h.2 _ (List.mem_map_of_mem ha)) hva
  | missing r => simp at hv

theorem Over.mono {sig' : Signature} (h : t.Over sig) (le : ∀ f n, sig f n → sig' f n) :
    t.Over sig' := by
  induction h with
  | var v => exact .var v
  | app known _ ih => exact .app (le _ _ known) ih

theorem Over.full (h : t.Over sig) : t.Over .full := h.mono fun _ _ _ => trivial

end

/-- The subterm at a position. -/
def subtermAt : Term → Position → Option Term
  | t, [] => some t
  | .app _ args, i :: p =>
    match args[i]? with
    | some a => a.subtermAt p
    | none => none
  | .var _, _ :: _ => none
  | .missing _, _ :: _ => none

/-- Puts `u` at a position; a term without the position stays as it is. -/
def replaceAt (u : Term) : Term → Position → Term
  | _, [] => u
  | .app f args, i :: p =>
    match args[i]? with
    | some a => .app f (args.set i (replaceAt u a p))
    | none => .app f args
  | .var v, _ :: _ => .var v
  | .missing r, _ :: _ => .missing r

/-- Is it an application? -/
def IsApp : Term → Prop
  | .app _ _ => True
  | .var _ => False
  | .missing _ => False

section
variable {θ : Var → Term} {f : Head} {args : List Term} {a s t u : Term} {p : Position} {i : Nat}

theorem IsApp.subst (h : t.IsApp) : (t.subst θ).IsApp := by
  cases t with
  | var _ => exact h.elim
  | app _ _ =>
      rw [subst_app]
      exact trivial
  | missing _ => exact h.elim

@[simp] theorem subtermAt_nil : t.subtermAt [] = some t := by
  cases t <;> rfl

@[simp] theorem replaceAt_nil : replaceAt u t [] = u := by
  cases t <;> rfl

theorem subtermAt_cons (h : args[i]? = some a) :
    (app f args).subtermAt (i :: p) = a.subtermAt p := by
  rw [subtermAt, h]

theorem replaceAt_cons (h : args[i]? = some a) :
    replaceAt u (app f args) (i :: p) = .app f (args.set i (replaceAt u a p)) := by
  rw [replaceAt, h]

theorem subtermAt_cons_eq_some (h : t.subtermAt (i :: p) = some s) :
    ∃ f args a, t = .app f args ∧ args[i]? = some a ∧ a.subtermAt p = some s := by
  cases t with
  | var v => simp [subtermAt] at h
  | app f args =>
      rw [subtermAt] at h
      split at h
      · rename_i a ha
        exact ⟨f, args, a, rfl, ha, h⟩
      · cases h
  | missing r => simp [subtermAt] at h

theorem subtermAt_subst (h : t.subtermAt p = some s) :
    (t.subst θ).subtermAt p = some (s.subst θ) := by
  induction p generalizing t with
  | nil =>
      rw [subtermAt_nil, Option.some.injEq] at h
      rw [h, subtermAt_nil]
  | cons i p ih =>
      obtain ⟨f, args, a, rfl, ha, hs⟩ := subtermAt_cons_eq_some h
      have moved : (args.map (subst θ))[i]? = some (a.subst θ) := by rw [List.getElem?_map, ha]; rfl
      rw [subst_app, subtermAt_cons moved, ih hs]

theorem replaceAt_subst (h : t.subtermAt p = some s) :
    (replaceAt u t p).subst θ = replaceAt (u.subst θ) (t.subst θ) p := by
  induction p generalizing t with
  | nil => rw [replaceAt_nil, replaceAt_nil]
  | cons i p ih =>
      obtain ⟨f, args, a, rfl, ha, hs⟩ := subtermAt_cons_eq_some h
      have moved : (args.map (subst θ))[i]? = some (a.subst θ) := by rw [List.getElem?_map, ha]; rfl
      rw [replaceAt_cons ha, subst_app, subst_app, replaceAt_cons moved, List.map_set, ih hs]

theorem replaceAt_self (h : t.subtermAt p = some s) : replaceAt s t p = t := by
  induction p generalizing t with
  | nil =>
      rw [subtermAt_nil, Option.some.injEq] at h
      rw [replaceAt_nil, h]
  | cons i p ih =>
      obtain ⟨f, args, a, rfl, ha, hs⟩ := subtermAt_cons_eq_some h
      obtain ⟨hi, rfl⟩ := List.getElem?_eq_some_iff.1 ha
      rw [replaceAt_cons ha, ih hs, List.set_getElem_self]

theorem subtermAt_replaceAt {q : Position} (h : t.subtermAt p = some s) :
    (replaceAt u t p).subtermAt (p ++ q) = u.subtermAt q := by
  induction p generalizing t with
  | nil => rw [replaceAt_nil, List.nil_append]
  | cons i p ih =>
      obtain ⟨f, args, a, rfl, ha, hs⟩ := subtermAt_cons_eq_some h
      obtain ⟨hi, -⟩ := List.getElem?_eq_some_iff.1 ha
      have here : (args.set i (replaceAt u a p))[i]? = some (replaceAt u a p) :=
        List.getElem?_set_self hi
      rw [replaceAt_cons ha, List.cons_append, subtermAt_cons here, ih hs]

/-- Positions that do not lie on one path do not see each other's subterms. -/
theorem subtermAt_replaceAt_of_apart {q : Position} (apart : ¬ p <+: q) (apart' : ¬ q <+: p) :
    (replaceAt u t p).subtermAt q = t.subtermAt q := by
  induction p generalizing t q with
  | nil => exact absurd List.nil_prefix apart
  | cons i p ih =>
      cases q with
      | nil => exact absurd List.nil_prefix apart'
      | cons j q =>
          cases t with
          | var v => rfl
          | missing r => rfl
          | app f args =>
              cases ha : args[i]? with
              | none => rw [replaceAt, ha]
              | some a =>
                  rw [replaceAt_cons ha]
                  by_cases same : i = j
                  · subst same
                    obtain ⟨hi, -⟩ := List.getElem?_eq_some_iff.1 ha
                    simp only [List.cons_prefix_cons, true_and] at apart apart'
                    rw [subtermAt_cons (List.getElem?_set_self hi), subtermAt_cons ha, ih apart apart']
                  · rw [subtermAt, subtermAt, List.getElem?_set_ne same]

theorem exists_subtermAt_var {v : Var} (h : v ∈ t.vars) : ∃ p, t.subtermAt p = some (.var v) := by
  induction t using Term.induct with
  | var w =>
      obtain rfl := mem_vars_var.1 h
      exact ⟨[], subtermAt_nil⟩
  | missing r => simp at h
  | app f args ih =>
      obtain ⟨a, ha, hv⟩ := mem_vars_app.1 h
      obtain ⟨p, at_⟩ := ih a ha hv
      obtain ⟨i, hi⟩ := List.mem_iff_getElem?.1 ha
      exact ⟨i :: p, by rw [subtermAt_cons hi, at_]⟩

/-- What arguments inherit, subterms inherit. -/
theorem subtermAt_inherits {D : Term → Prop} (arg : ∀ (f : Head) (args : List Term), D (.app f args) → ∀ a ∈ args, D a)
    (ht : D t) (h : t.subtermAt p = some s) : D s := by
  induction p generalizing t with
  | nil =>
      rw [subtermAt_nil, Option.some.injEq] at h
      exact h ▸ ht
  | cons i p ih =>
      obtain ⟨f, args, a, rfl, ha, hs⟩ := subtermAt_cons_eq_some h
      exact ih (arg f args ht a (List.mem_of_getElem? ha)) hs

theorem IsGround.subtermAt (ht : t.IsGround) (h : t.subtermAt p = some s) : s.IsGround :=
  subtermAt_inherits (fun _ _ ground _ ha => ground.arg ha) ht h

theorem Over.subtermAt {sig : Signature} (ht : t.Over sig) (h : t.subtermAt p = some s) : s.Over sig :=
  subtermAt_inherits (fun _ _ inSig => (over_app_iff.1 inSig).2) ht h

theorem mem_vars_of_subtermAt {v : Var} (h : t.subtermAt p = some s) (hv : v ∈ s.vars) : v ∈ t.vars := by
  refine subtermAt_inherits (D := fun u => ∀ v ∈ u.vars, v ∈ t.vars) ?_ (fun _ hv => hv) h v hv
  exact fun _ _ inside a ha v hv => inside v (mem_vars_app.2 ⟨a, ha, hv⟩)

theorem mem_vars_replaceAt {v : Var} (hv : v ∈ (replaceAt u t p).vars) : v ∈ t.vars ∨ v ∈ u.vars := by
  induction p generalizing t with
  | nil => exact .inr (replaceAt_nil (u := u) (t := t) ▸ hv)
  | cons i p ih =>
      cases t with
      | var w => exact .inl hv
      | missing r => exact .inl hv
      | app f args =>
          cases ha : args[i]? with
          | none =>
              rw [replaceAt, ha] at hv
              exact .inl hv
          | some a =>
              rw [replaceAt_cons ha, mem_vars_app] at hv
              obtain ⟨b, hb, hv⟩ := hv
              rcases List.mem_or_eq_of_mem_set hb with old | rfl
              · exact .inl (mem_vars_app.2 ⟨b, old, hv⟩)
              · exact (ih hv).imp_left fun hv => mem_vars_app.2 ⟨a, List.mem_of_getElem? ha, hv⟩

/-- An application inside an instance is an instance of one, if only variables stand for variables. -/
theorem exists_subtermAt_of_subst (named : ∀ v ∈ t.vars, ∃ w, θ v = .var w)
    (h : (t.subst θ).subtermAt p = some s) (app : s.IsApp) :
    ∃ u, t.subtermAt p = some u ∧ u.IsApp ∧ u.subst θ = s := by
  induction p generalizing t with
  | nil =>
      rw [subtermAt_nil, Option.some.injEq] at h
      subst h
      cases t with
      | var v =>
          obtain ⟨w, hw⟩ := named v (mem_vars_var.2 rfl)
          rw [subst_var, hw] at app
          exact app.elim
      | app f args => exact ⟨_, subtermAt_nil, trivial, rfl⟩
      | missing r => exact app.elim
  | cons i p ih =>
      cases t with
      | var v =>
          obtain ⟨w, hw⟩ := named v (mem_vars_var.2 rfl)
          rw [subst_var, hw] at h
          cases h
      | missing r => cases h
      | app f args =>
          rw [subst_app] at h
          obtain ⟨g, bs, b, same, hb, hs⟩ := subtermAt_cons_eq_some h
          obtain ⟨rfl, rfl⟩ := Term.app.inj same
          rw [List.getElem?_map, Option.map_eq_some_iff] at hb
          obtain ⟨a, ha, rfl⟩ := hb
          rw [subtermAt_cons ha]
          exact ih (fun v hv => named v (mem_vars_app.2 ⟨a, List.mem_of_getElem? ha, hv⟩)) hs

theorem Over.replaceAt {sig : Signature} (ht : t.Over sig) (hu : u.Over sig) :
    (Term.replaceAt u t p).Over sig := by
  induction p generalizing t with
  | nil =>
      rw [replaceAt_nil]
      exact hu
  | cons i p ih =>
      cases ht with
      | var v => exact .var v
      | @app f args known inSig =>
          cases ha : args[i]? with
          | none =>
              rw [Term.replaceAt, ha]
              exact .app known inSig
          | some a =>
              rw [replaceAt_cons ha, over_app_iff, List.length_set]
              refine ⟨known, fun b hb => ?_⟩
              rcases List.mem_or_eq_of_mem_set hb with old | rfl
              · exact inSig b old
              · exact ih (inSig a (List.mem_of_getElem? ha))

end
end Term
end OrderedCompletion
