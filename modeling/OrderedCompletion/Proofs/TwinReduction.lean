import OrderedCompletion.Proofs.TwinDraws
import OrderedCompletion.Reduction

/-! Normalization, side by side. -/

namespace OrderedCompletion

open Term Parallel TermM Workspace

theorem Subst.isBound_bind (σ : Subst) (v w : Var) (r : Ref) :
    (σ.bind v r).isBound w = (decide (w = v) || σ.isBound w) := by
  rw [isBound, isBound, find?_bind]
  by_cases same : w = v
  · simp [same]
  · simp [same]

theorem getElem?_insert_ref (memo : Std.TreeMap Ref Ref) (r x out : Ref) :
    (memo.insert r out)[x]? = if x = r then some out else memo[x]? := by
  rw [Std.TreeMap.getElem?_insert]
  simp only [Std.LawfulEqCmp.compare_eq_iff_eq, eq_comm (a := r)]

namespace Parallel

variable {P P' : Parallel} {r r' q q' : Ref} {a b : Term} {memo memo' : Std.TreeMap Ref Ref}

/-- References to what became of a term, which has no new variables. -/
def Kept (P : Parallel) (a : Term) (r q : Ref) : Prop := ∃ b, P.Reads b r q ∧ a.Keeps b

theorem Kept.mono (h : P.Kept a r q) (ext : P.Extends P') : P'.Kept a r q := h.imp fun _ h => ⟨h.1.mono ext, h.2⟩

theorem Kept.of_keeps (h : P.Kept b r q) (keeps : a.Keeps b) : P.Kept a r q :=
  h.imp fun _ h => ⟨h.1, keeps.trans h.2⟩

theorem Reads.kept (h : P.Reads a r q) : P.Kept a r q := ⟨a, h, .refl a⟩

/-- What became of the sides of equations. -/
theorem Shows.kept {c : Term × Term} {e d : Equation} (h : P.Shows c e d) (left : P.Kept c.1 r q)
    (right : P.Kept c.2 r' q') : P.TwinEq ⟨r, r'⟩ ⟨q, q'⟩ := by
  obtain ⟨a, left, keeps⟩ := left
  obtain ⟨b, right, keeps'⟩ := right
  exact ⟨(a, b), left, right, h.ordered.mono fun v hv => hv.imp (keeps v) (keeps' v)⟩

/-- The application of a head to what became of its arguments. -/
theorem app_does {f : Head} {rs qs : List Ref} (h : List.Forall₂ (P.Kept a) rs qs) :
    P.Does (Store.app f rs) (Store.app f qs) fun P' => P'.Kept a := by
  obtain ⟨ts, left, right, keeps⟩ : ∃ ts : List Term, P.left.store.DenotesAll rs ts ∧
      P.right.store.DenotesAll qs (ts.map (Term.rename P.names)) ∧
      ∀ t ∈ ts, (∀ v ∈ t.vars, v ∈ P.known) ∧ a.Keeps t := by
    induction h with
    | nil => exact ⟨[], .nil, .nil, by simp⟩
    | cons here _ ih =>
        obtain ⟨ts, left, right, keeps⟩ := ih
        obtain ⟨t, reads, keeps'⟩ := here
        exact ⟨t :: ts, .cons reads.left left, .cons reads.right right,
          List.forall_mem_cons.2 ⟨⟨reads.known, keeps'⟩, keeps⟩⟩
  refine does (Store.app_spec P.left.wellFormed left) (Store.intern_grows _) (Store.app_spec P.right.wellFormed right)
    (Store.intern_grows _) ?_
  intro P' r q ext names _ left' right'
  refine ⟨_, ⟨left', by rwa [names, rename_app], fun v hv => ?_⟩, keeps_app fun t ht => (keeps t ht).2⟩
  obtain ⟨t, ht, hv⟩ := mem_vars_app.1 hv
  exact ext.known ((keeps t ht).1 v hv)

/-- Outcomes that were noted for the same terms. -/
structure TwinMemo (P : Parallel) (memo memo' : Std.TreeMap Ref Ref) : Prop where
  left : ∀ r out, memo[r]? = some out → ∃ a q out', P.Reads a r q ∧ memo'[q]? = some out' ∧ P.Kept a out out'
  right : ∀ q out', memo'[q]? = some out' → ∃ r out, P.Twin r q ∧ memo[r]? = some out

theorem TwinMemo.mono (h : P.TwinMemo memo memo') (ext : P.Extends P') : P'.TwinMemo memo memo' where
  left := by
    intro r out hr
    obtain ⟨a, q, out', reads, hq, kept⟩ := h.left r out hr
    exact ⟨a, q, out', reads.mono ext, hq, kept.mono ext⟩
  right := by
    intro q out' hq
    obtain ⟨r, out, twin, hr⟩ := h.right q out' hq
    exact ⟨r, out, twin.mono ext, hr⟩

theorem twinMemo_empty (P : Parallel) : P.TwinMemo {} {} where
  left := fun r out hr => by simp at hr
  right := fun q out' hq => by simp at hq

/-- Terms that correspond have outcomes that correspond, or none. -/
theorem TwinMemo.lookup (h : P.TwinMemo memo memo') (reads : P.Reads a r q) :
    Option.Rel (P.Kept a) memo[r]? memo'[q]? := by
  cases hr : memo[r]? with
  | some out =>
      obtain ⟨b, q', out', reads', hq, kept⟩ := h.left r out hr
      obtain rfl := (reads.eq_iff reads').1 rfl
      obtain rfl := reads.unique reads'
      rw [hq]
      exact .some kept
  | none =>
      cases hq : memo'[q]? with
      | none => exact .none
      | some out' =>
          obtain ⟨r', out, twin, hr'⟩ := h.right q out' hq
          obtain rfl := (twin.eq_iff ⟨a, reads⟩).2 rfl
          rw [hr] at hr'
          cases hr'

theorem TwinMemo.insert (h : P.TwinMemo memo memo') (reads : P.Reads a r q) (kept : P.Kept a r' q') :
    P.TwinMemo (memo.insert r r') (memo'.insert q q') where
  left := by
    intro x out hx
    rw [getElem?_insert_ref] at hx
    split at hx
    · rename_i same
      cases hx
      exact ⟨a, q, q', same ▸ reads, by rw [getElem?_insert_ref, if_pos rfl], kept⟩
    · rename_i other
      obtain ⟨b, y, out', reads', hy, kept'⟩ := h.left x out hx
      refine ⟨b, y, out', reads', ?_, kept'⟩
      rw [getElem?_insert_ref, if_neg fun same => other ((reads'.eq_iff reads).2 same), hy]
  right := by
    intro y out' hy
    rw [getElem?_insert_ref] at hy
    split at hy
    · rename_i same
      exact ⟨r, r', same ▸ ⟨a, reads⟩, by rw [getElem?_insert_ref, if_pos rfl]⟩
    · rename_i other
      obtain ⟨x, out, twin, hx⟩ := h.right y out' hy
      refine ⟨x, out, twin, ?_⟩
      rw [getElem?_insert_ref, if_neg fun same => other ((twin.eq_iff ⟨a, reads⟩).1 same), hx]

/-- Normalization by the same rules and equations. -/
structure TwinReducer (P : Parallel) (rd rd' : Reducer) : Prop where
  order : rd'.order = rd.order
  maxPasses : rd'.maxPasses = rd.maxPasses
  maxGrowth : rd'.maxGrowth = rd.maxGrowth
  rules : List.Forall₂ P.TwinRule rd.rules rd'.rules
  equations : List.Forall₂ P.TwinEq rd.equations rd'.equations

theorem TwinReducer.mono {rd rd' : Reducer} (h : P.TwinReducer rd rd') (ext : P.Extends P') : P'.TwinReducer rd rd' :=
  { h with
    rules := h.rules.imp fun _ _ h => h.mono ext
    equations := h.equations.imp fun _ _ h => h.mono ext }

end Parallel

namespace Reducer

variable {P : Parallel} {w w' : ReduceState} {t t' : Ref} {a : Term} {c : Term × Term} {e d : Equation}
variable {σ σ' : Subst} {V : Set Var} {θ : Var → Term}

/-- What each side leaves behind, and what the two have noted. -/
abbrev Leaves (Q : Parallel → Ref → Ref → Prop) (P : Parallel) (out out' : Ref) (w w' : ReduceState) : Prop :=
  P.TwinMemo w.memo w'.memo ∧ Q P out out'

theorem drawVar_mirrors (memo : P.TwinMemo w.memo w'.memo) :
    Mirrors P w w' (onWorkspace drawVar) (onWorkspace drawVar)
      (Leaves fun P' r q => ∃ x, P'.Reads (.var x) r q) :=
  .within Workspace.drawVar_mirrors (fun _ => rfl) (fun _ _ => rfl)
    fun _ _ _ _ _ ext ⟨x, _, reads⟩ => ⟨memo.mono ext, x, reads⟩

/-- Variables that are bound stay as they are. -/
theorem bindClashes_mirrors {ts ts' vs : List Var} (memo : P.TwinMemo w.memo w'.memo) (couples : P.Couples V θ σ σ')
    (bound : ∀ v ∈ V, σ'.isBound (P.names v) = σ.isBound v)
    (clash : ∀ v ∈ V, ts'.contains (P.names v) = ts.contains v) (inside : ∀ v ∈ vs, v ∈ V) :
    Mirrors P w w' (bindClashes ts σ vs) (bindClashes ts' σ' (vs.map P.names)) fun P' τ τ' w₁ w₁' =>
      P'.TwinMemo w₁.memo w₁'.memo ∧ ∃ η, P'.Couples V η τ τ' ∧ ∀ v, σ.isBound v = true → η v = θ v := by
  induction vs generalizing P w w' σ σ' θ with
  | nil => exact .pure ⟨memo, θ, couples, fun _ _ => rfl⟩
  | cons v vs ih =>
      have hv := inside v List.mem_cons_self
      rw [List.map_cons, bindClashes, bindClashes, bound v hv, clash v hv]
      by_cases draws : (!σ.isBound v && ts.contains v) = true
      · rw [if_pos draws, if_pos draws]
        refine (drawVar_mirrors memo).bind ?_
        rintro P₁ r q w₁ w₁' ext ⟨memo₁, x, reads⟩
        have known : ∀ v ∈ V, P₁.names v = P.names v := fun v hv => ext.names v (couples.inside hv)
        have couples₁ := (couples.mono ext).bind (v := v) reads
        have names : vs.map P.names = vs.map P₁.names :=
          List.map_congr_left fun v hv => (known v (inside v (List.mem_cons_of_mem _ hv))).symm
        rw [names, ← known v hv]
        refine (ih memo₁ couples₁ (fun u hu => ?_) (fun u hu => ?_)
          fun u hu => inside u (List.mem_cons_of_mem _ hu)).mono ?_
        · rw [Subst.isBound_bind, Subst.isBound_bind, known u hu, ← bound u hu]
          simp only [P₁.names.injective.eq_iff, ← known u hu]
        · rw [known u hu]
          exact clash u hu
        · rintro P₂ τ τ' w₂ w₂' ext₂ ⟨memo₂, η, couples₂, same⟩
          refine ⟨memo₂, η, couples₂, fun u hu => ?_⟩
          have other : u ≠ v := by
            rintro rfl
            rw [hu] at draws
            cases draws
          rw [same u (by rw [Subst.isBound_bind, hu, Bool.or_true]), if_neg other]
      · rw [if_neg draws, if_neg draws]
        exact ih memo couples bound clash fun u hu => inside u (List.mem_cons_of_mem _ hu)

theorem instantiate_mirrors (memo : P.TwinMemo w.memo w'.memo) (h : P.Shows c e d) (target : P.Reads a t t')
    (couples : P.Couples V θ σ σ') (bound : ∀ v ∈ V, σ'.isBound (P.names v) = σ.isBound v)
    (inside : ∀ v ∈ c.2.vars, v ∈ V) :
    Mirrors P w w' (instantiate e σ t) (instantiate d σ' t') fun P' out out' w₁ w₁' =>
      P'.TwinMemo w₁.memo w₁'.memo ∧
        ∃ η : Var → Term, P'.Reads (c.2.subst η) out out' ∧ ∀ v, σ.isBound v = true → η v = θ v := by
  rw [instantiate, instantiate]
  refine .bindLift (vars_does target) ?_
  rintro P₁ _ _ ext₁ ⟨rfl, rfl⟩
  refine .bindLift (vars_does (h.rhs.mono ext₁)) ?_
  rintro P₂ _ _ ext₂ ⟨rfl, rfl⟩
  have ext := ext₁.trans ext₂
  have shows := h.mono ext
  have known : ∀ v ∈ P.known, P₂.names v = P.names v := ext.names
  rw [vars_rename (shows.ordered.mono fun _ => .inr)]
  have clash : ∀ v ∈ V, (a.rename P₁.names).vars.contains (P₂.names v) = a.vars.contains v := by
    intro v hv
    rw [← rename_congr fun v hv => ext₂.names v (ext₁.known (target.known v hv)), Bool.eq_iff_iff,
      List.contains_iff_mem, List.contains_iff_mem, mem_vars_rename]
    constructor
    · rintro ⟨u, hu, same⟩
      exact P₂.names.injective same ▸ hu
    · exact fun hv => ⟨v, hv, rfl⟩
  refine (bindClashes_mirrors (memo.mono ext) (couples.mono ext) (fun v hv => ?_) clash inside).bind ?_
  · rw [known v (couples.inside hv)]
    exact bound v hv
  · rintro P₃ τ τ' w₃ w₃' ext₃ ⟨memo₃, η, couples₃, same⟩
    refine .lift (apply_does couples₃ (shows.rhs.mono ext₃) inside) fun P₄ out out' ext₄ reads => ?_
    exact ⟨memo₃.mono ext₄, η, reads, same⟩

/-- On both sides a rule applies or does not. -/
theorem useRule_mirrors (memo : P.TwinMemo w.memo w'.memo) (h : P.TwinRule e d) (target : P.Reads a t t') :
    Mirrors P w w' (useRule t e) (useRule t' d) (Leaves fun P' => P'.Kept a) := by
  obtain ⟨c, h, keeps⟩ := h
  rw [useRule, useRule]
  refine .bindLift (match_does h.lhs target) ?_
  intro P₁ found found' ext both
  cases both with
  | none => exact .pure ⟨memo.mono ext, (target.mono ext).kept⟩
  | some both =>
      obtain ⟨θ, couples, rfl, bound⟩ := both
      refine (instantiate_mirrors (memo.mono ext) (h.mono ext) (target.mono ext) couples (fun v hv => (bound v hv).2)
        h.rhs.known).mono ?_
      rintro P₂ out out' w₂ w₂' ext₂ ⟨memo₂, η, reads, same⟩
      have inst : c.2.subst η = c.2.subst θ :=
        subst_congr fun v hv => same v ((bound v (h.rhs.known v hv)).1.2 (keeps v hv))
      rw [inst] at reads
      exact ⟨memo₂, _, reads, keeps.subst⟩

section
variable {o : Order} {gt : Term → Term → Prop} (judges : o.Judges WordSized .full gt)
variable (quiet : ∀ s r q, o.alarm s r q = false)
include judges quiet

/-- On both sides an equation makes a term smaller or does not apply. -/
theorem useEquation_mirrors (memo : P.TwinMemo w.memo w'.memo) (h : P.TwinEq e d) (target : P.Reads a t t') :
    Mirrors P w w' (useEquation o t e) (useEquation o t' d) (Leaves fun P' => P'.Kept a) := by
  obtain ⟨c, h⟩ := h
  rw [useEquation, useEquation]
  refine .bindLift (match_does h.lhs target) ?_
  intro P₁ found found' ext both
  cases both with
  | none => exact .pure ⟨memo.mono ext, (target.mono ext).kept⟩
  | some both =>
      obtain ⟨θ, couples, -, bound⟩ := both
      refine (instantiate_mirrors (memo.mono ext) (h.mono ext) (target.mono ext) couples (fun v hv => (bound v hv).2)
        h.rhs.known).bind ?_
      rintro P₂ u u' w₂ w₂' ext₂ ⟨memo₂, η, reads, -⟩
      have target₂ := (target.mono ext).mono ext₂
      refine (Mirrors.within (T := fun P' yes yes' (w₁ w₁' : ReduceState) => P'.TwinMemo w₁.memo w₁'.memo ∧
        yes' = yes ∧ (yes = true → gt a (c.2.subst η)))
          (ask_mirrors judges quiet target₂ reads) (fun _ => rfl) (fun _ _ => rfl)
        fun _ _ _ _ _ ext₃ h => ⟨memo₂.mono ext₃, h.1, h.2.1⟩).bind ?_
      rintro P₃ _ yes w₃ w₃' ext₃ ⟨memo₃, rfl, less⟩
      cases yes with
      | true => exact .pure ⟨memo₃, _, reads.mono ext₃, judges.blind.vars (less rfl)⟩
      | false => exact .pure ⟨memo₃, (target₂.mono ext₃).kept⟩

end

theorem foldl_uses {S : Parallel → Equation → Equation → Prop} {use use' : Ref → Equation → ReduceM Ref}
    {es ds : List Equation} (later : ∀ P' e d, P.Extends P' → S P e d → S P' e d)
    (all : List.Forall₂ (S P) es ds) (memo : P.TwinMemo w.memo w'.memo) (target : P.Kept a t t')
    (step : ∀ {P' : Parallel} {b : Term} {t t' : Ref} {e d : Equation} {w w' : ReduceState}, S P' e d →
      P'.TwinMemo w.memo w'.memo → P'.Reads b t t' →
      Mirrors P' w w' (use t e) (use' t' d) (Leaves fun P' => P'.Kept b)) :
    Mirrors P w w' (es.foldlM use t) (ds.foldlM use' t') (Leaves fun P' => P'.Kept a) := by
  refine .foldlM later all ⟨memo, target⟩ ?_
  rintro P' e d u u' w₁ w₁' - here ⟨memo', b, reads, keeps⟩
  exact (step here memo' reads).mono fun _ _ _ _ _ _ h => ⟨h.1, h.2.of_keeps keeps⟩

variable {rd rd' : Reducer} {gt : Term → Term → Prop} (judges : rd.order.Judges WordSized .full gt)
variable (quiet : ∀ s r q, rd.order.alarm s r q = false)
include judges quiet

theorem reduceTop_mirrors (memo : P.TwinMemo w.memo w'.memo) (twins : P.TwinReducer rd rd') (target : P.Kept a t t') :
    Mirrors P w w' (rd.reduceTop t) (rd'.reduceTop t') (Leaves fun P' => P'.Kept a) := by
  rw [reduceTop, reduceTop, twins.order]
  refine (foldl_uses (S := TwinRule) (fun _ _ _ ext h => h.mono ext) twins.rules memo target
    fun here memo' reads => useRule_mirrors memo' here reads).bind ?_
  rintro P₁ u u' w₁ w₁' ext ⟨memo₁, kept⟩
  have both : List.Forall₂ P₁.TwinEq (rd.equations.flatMap fun e => [e, e.reversed])
      (rd'.equations.flatMap fun e => [e, e.reversed]) :=
    List.rel_flatMap (twins.mono ext).equations fun _ _ h => .cons h (.cons h.reversed .nil)
  exact foldl_uses (S := TwinEq) (fun _ _ _ ext h => h.mono ext) both memo₁ kept
    fun here memo' reads => useEquation_mirrors judges quiet memo' here reads

/-- The outcome for a term is reached from what became of it. -/
theorem settle_mirrors {call call' : ReduceCall} {inner inner' : Ref} (same : call'.ceiling = call.ceiling)
    (memo : P.TwinMemo w.memo w'.memo) (twins : P.TwinReducer rd rd') (target : P.Reads a t t')
    (reached : P.Kept a inner inner') :
    Mirrors P w w' (rd.settle call t inner) (rd'.settle call' t' inner') (Leaves fun P' => P'.Kept a) := by
  rw [settle, settle]
  refine (reduceTop_mirrors judges quiet memo twins reached).bind ?_
  rintro P₁ out out' w₁ w₁' ext ⟨memo₁, kept⟩
  refine .bindStore ?_
  obtain ⟨b, reads, -⟩ := id kept
  rw [reads.sizeOf_eq, same]
  by_cases large : call.ceiling < (P₁.left.store.sizeOf out).toNat
  · rw [if_pos large]
    exact .throw
  · rw [if_neg large, if_neg large]
    exact .bindModify rfl rfl (.pure ⟨memo₁.insert (target.mono ext) kept, kept⟩)

theorem passWithin_mirrors {call call' : ReduceCall} {n m : Nat} (same : call'.ceiling = call.ceiling)
    (memo : P.TwinMemo w.memo w'.memo) (twins : P.TwinReducer rd rd') (target : P.Reads a t t') (fuel : t' < m) :
    Mirrors P w w' (rd.passWithin call n t) (rd'.passWithin call' m t') (Leaves fun P' => P'.Kept a) := by
  induction m generalizing P w w' n t t' a with
  | zero => exact absurd fuel (Nat.not_lt_zero t')
  | succ m ih =>
      cases n with
      | zero => exact .throw
      | succ n =>
          rw [passWithin, passWithin]
          refine .bindGet ?_
          have found := memo.lookup target
          revert found
          generalize w.memo[t]? = known
          generalize w'.memo[t']? = known'
          rintro (kept | _)
          · exact .pure ⟨memo, kept⟩
          refine .bindStore ?_
          cases a with
          | var v =>
              rw [target.left.node_var P.left.wellFormed, target.right.node_var P.right.wellFormed]
              exact settle_mirrors judges quiet same memo twins target target.kept
          | missing ref => exact absurd (target.left.over_full P.left.wellFormed) not_over_missing
          | app f ts =>
              obtain ⟨rs, qs, node, node', args⟩ := target.args
              rw [node, node']
              refine (Mirrors.mapM (S := fun P' x y => y < t' ∧ ∃ b ∈ ts, P'.Reads b x y)
                (T := fun P' => P'.Kept (.app f ts))
                (I := fun P' w w' => P'.TwinMemo w.memo w'.memo)
                (fun P' x y ext h => ⟨h.1, h.2.imp fun _ h => ⟨h.1, h.2.mono ext⟩⟩)
                (fun _ _ _ _ ext h => h.mono ext) (TwinArg.unindexed args) memo ?_).bind ?_
              · rintro P₁ x y w₁ w₁' - ext ⟨less, b, hb, reads⟩ memo₁
                have fewer := Nat.lt_of_lt_of_le less (Nat.le_of_lt_succ fuel)
                have onward := ih (n := n) memo₁ (twins.mono ext) reads fewer
                exact onward.mono fun _ _ _ _ _ _ h => ⟨h.1, h.2.of_keeps (keeps_of_mem hb)⟩
              · rintro P₁ inner inner' w₁ w₁' ext₁ ⟨memo₁, kept⟩
                refine .bindLift (app_does kept) fun P₂ r q ext₂ reached => ?_
                exact settle_mirrors judges quiet same (memo₁.mono ext₂) (twins.mono (ext₁.trans ext₂))
                  (target.mono (ext₁.trans ext₂)) reached

theorem pass_mirrors {call call' : ReduceCall} (same : call'.ceiling = call.ceiling)
    (memo : P.TwinMemo w.memo w'.memo) (twins : P.TwinReducer rd rd') (target : P.Reads a t t') :
    Mirrors P w w' (rd.pass call t) (rd'.pass call' t') (Leaves fun P' => P'.Kept a) :=
  .bindStore (passWithin_mirrors judges quiet same memo twins target (Nat.lt_add_right _ target.right.1))

theorem passUntilFixed_mirrors {start start' : Ref} {ceiling left done done' : Nat}
    (memo : P.TwinMemo w.memo w'.memo) (twins : P.TwinReducer rd rd') (target : P.Reads a t t') :
    Mirrors P w w' (rd.passUntilFixed start ceiling left done t) (rd'.passUntilFixed start' ceiling left done' t')
      (Leaves fun P' => P'.Kept a) := by
  induction left generalizing P w w' done done' t t' a with
  | zero => exact .throw
  | succ left ih =>
      rw [passUntilFixed, passUntilFixed]
      refine (pass_mirrors judges quiet (by rfl) memo twins target).bind ?_
      rintro P₁ u u' w₁ w₁' ext ⟨memo₁, b, reads, keeps⟩
      refine .bindModify rfl rfl ?_
      by_cases fixed : u = t
      · rw [if_pos fixed, if_pos ((reads.eq_iff (target.mono ext)).1 fixed)]
        exact .pure ⟨memo₁, (target.mono ext).kept⟩
      · rw [if_neg fixed, if_neg fun fixed' => fixed ((reads.eq_iff (target.mono ext)).2 fixed')]
        refine (ih ?_ (twins.mono ext) reads).mono fun _ _ _ _ _ _ h => ⟨h.1, h.2.of_keeps keeps⟩
        exact memo₁

theorem normalize_mirrors (memo : P.TwinMemo w.memo w'.memo) (twins : P.TwinReducer rd rd') (target : P.Reads a t t') :
    Mirrors P w w' (rd.normalize t) (rd'.normalize t') (Leaves fun P' => P'.Kept a) := by
  rw [normalize, normalize]
  refine .bindStore ?_
  rw [target.sizeOf_eq, twins.maxGrowth, twins.maxPasses]
  exact passUntilFixed_mirrors judges quiet memo twins target

theorem normalizeSides_mirrors (memo : P.TwinMemo w.memo w'.memo) (twins : P.TwinReducer rd rd') (h : P.TwinEq e d) :
    Mirrors P w w' (do
      let lhs ← rd.normalize e.lhs
      let rhs ← rd.normalize e.rhs
      return (⟨lhs, rhs⟩ : Equation)) (do
      let lhs ← rd'.normalize d.lhs
      let rhs ← rd'.normalize d.rhs
      return (⟨lhs, rhs⟩ : Equation)) fun P' out out' w₁ w₁' => P'.TwinMemo w₁.memo w₁'.memo ∧ P'.TwinEq out out' := by
  obtain ⟨c, h⟩ := h
  refine (normalize_mirrors judges quiet memo twins h.lhs).bind ?_
  rintro P₁ l l' w₁ w₁' ext₁ ⟨memo₁, left⟩
  refine (normalize_mirrors judges quiet memo₁ (twins.mono ext₁) (h.rhs.mono ext₁)).bind ?_
  rintro P₂ r r' w₂ w₂' ext₂ ⟨memo₂, right⟩
  exact .pure ⟨memo₂, ((h.mono ext₁).mono ext₂).kept (left.mono ext₂) right⟩

/-- The sides of equations in turn. -/
def sidesOf (es : List Equation) : List Ref := es.flatMap fun eq => [eq.lhs, eq.rhs]

theorem normalizeAll_mirrors {es ds : List Equation} (memo : P.TwinMemo w.memo w'.memo)
    (twins : P.TwinReducer rd rd') (h : List.Forall₂ P.TwinEq es ds) :
    Mirrors P w w' (rd.normalizeAll (sidesOf es)) (rd'.normalizeAll (sidesOf ds)) fun P' us us' w₁ w₁' =>
      P'.TwinMemo w₁.memo w₁'.memo ∧
        ∃ es' ds', us = sidesOf es' ∧ us' = sidesOf ds' ∧ List.Forall₂ P'.TwinEq es' ds' := by
  induction es generalizing P w w' ds with
  | nil =>
      cases h
      exact .pure ⟨memo, [], [], rfl, rfl, .nil⟩
  | cons e es ih =>
      cases h with
      | @cons _ d _ ds here rest =>
      obtain ⟨c, here⟩ := here
      change Mirrors P w w' (rd.normalizeAll (e.lhs :: e.rhs :: sidesOf es))
        (rd'.normalizeAll (d.lhs :: d.rhs :: sidesOf ds)) _
      rw [normalizeAll, normalizeAll, normalizeAll, normalizeAll]
      refine (normalize_mirrors judges quiet memo twins here.lhs).bind ?_
      rintro P₁ l l' w₁ w₁' ext₁ ⟨memo₁, left⟩
      refine Mirrors.bind (Q := fun P₂ us us' w₂ w₂' => P₂.TwinMemo w₂.memo w₂'.memo ∧ ∃ r r' es' ds',
        us = r :: sidesOf es' ∧ us' = r' :: sidesOf ds' ∧ P₂.Kept c.2 r r' ∧ List.Forall₂ P₂.TwinEq es' ds') ?_ ?_
      · refine (normalize_mirrors judges quiet memo₁ (twins.mono ext₁) (here.rhs.mono ext₁)).bind ?_
        rintro P₂ r r' w₂ w₂' ext₂ ⟨memo₂, right⟩
        have ext := ext₁.trans ext₂
        refine (ih memo₂ (twins.mono ext) (rest.imp fun _ _ h => h.mono ext)).bind ?_
        rintro P₃ _ _ w₃ w₃' ext₃ ⟨memo₃, es', ds', rfl, rfl, more⟩
        exact .pure ⟨memo₃, r, r', es', ds', rfl, rfl, right.mono ext₃, more⟩
      · rintro P₂ _ _ w₂ w₂' ext₂ ⟨memo₂, r, r', es', ds', rfl, rfl, right, more⟩
        exact .pure ⟨memo₂, ⟨l, r⟩ :: es', ⟨l', r'⟩ :: ds', rfl, rfl,
          .cons (((here.mono ext₁).mono ext₂).kept (left.mono ext₂) right) more⟩

end Reducer
end OrderedCompletion
