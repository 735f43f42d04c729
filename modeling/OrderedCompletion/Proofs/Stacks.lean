import OrderedCompletion.Proofs.Unification

/-! The loops of unification. They take references and pairs off stacks, and every one of them ends, in one way:
with what the recursive definitions make of the same stack. -/

namespace OrderedCompletion.Store

variable {s s' s₁ : Store} {σ ω : Subst} {θ : Var → Term} {P : Term → Prop} {a b p q q' r : Ref} {v w : Var}
variable {pair : Ref × Ref} {pairs stack : List (Ref × Ref)} {n : Nat}

/-! ### Runs -/

/-- The runs of the loop that goes on from a bound variable to what it is bound to. -/
inductive Follows (s : Store) (σ : Subst) : Ref → Ref → Prop
  | rest {r : Ref} : (∀ v, s.node? r = some (.var v) → σ.find? v = none) → Follows s σ r r
  | move {r q out : Ref} {v : Var} : s.node? r = some (.var v) → σ.find? v = some q → Follows s σ q out →
      Follows s σ r out

/-- What the search puts on its stack: the arguments of an application, the last one on top. -/
def parts (s : Store) (r : Ref) : List Ref :=
  match s.node? r with
  | some (.app _ args) => args.reverse
  | _ => []

/-- The runs of the search for a variable below the references on a stack. What is first in the list is on top, and
a ground term is not searched. -/
inductive Searches (σ : Subst) (v : Var) : Store → List Ref → Bool → Store → Prop
  | done {s : Store} : Searches σ v s [] false s
  | ground {s s₁ s' : Store} {r : Ref} {rest : List Ref} {yes : Bool} : isGround r s = (true, s₁) →
      Searches σ v s₁ rest yes s' → Searches σ v s (r :: rest) yes s'
  | found {s s₁ : Store} {r q : Ref} {rest : List Ref} : isGround r s = (false, s₁) → Follows s₁ σ r q →
      s₁.node? q = some (.var v) → Searches σ v s (r :: rest) true s₁
  | pass {s s₁ s' : Store} {r q : Ref} {rest : List Ref} {yes : Bool} : isGround r s = (false, s₁) →
      Follows s₁ σ r q → s₁.node? q ≠ some (.var v) → Searches σ v s₁ (s₁.parts q ++ rest) yes s' →
      Searches σ v s (r :: rest) yes s'

/-- What becomes of two terms neither of which is a bound variable: bindings and pairs for the stack, or nothing if
they have no unifier. -/
def Meets (σ : Subst) (s : Store) (p q : Ref) (o : Option (Subst × List (Ref × Ref))) (s' : Store) : Prop :=
  if p = q then o = some (σ, []) ∧ s' = s
  else match s.node? p, s.node? q with
    | some (.var v), some (.var w) => o = some (if v < w then σ.bind w p else σ.bind v q, []) ∧ s' = s
    | some (.var v), some (.app _ _) =>
      ∃ inside, Searches σ v s [q] inside s' ∧ o = if inside then none else some (σ.bind v q, [])
    | some (.app _ _), some (.var w) =>
      ∃ inside, Searches σ w s [p] inside s' ∧ o = if inside then none else some (σ.bind w p, [])
    | some (.app f ss), some (.app g ts) =>
      (o = if f = g ∧ ss.length = ts.length then some (σ, (ss.zip ts).reverse) else none) ∧ s' = s
    | none, _ => o = none ∧ s' = s
    | _, none => o = none ∧ s' = s

/-- The runs of the loop over the pairs on a stack. What is first in the list is on top. -/
inductive Clears : Subst → Store → List (Ref × Ref) → Option Subst → Store → Prop
  | done {σ : Subst} {s : Store} : Clears σ s [] (some σ) s
  | fail {σ : Subst} {s s' : Store} {a b p q : Ref} {rest : List (Ref × Ref)} : Follows s σ a p → Follows s σ b q →
      Meets σ s p q none s' → Clears σ s ((a, b) :: rest) none s'
  | next {σ σ₁ : Subst} {s s₁ s' : Store} {a b p q : Ref} {new rest : List (Ref × Ref)} {o : Option Subst} :
      Follows s σ a p → Follows s σ b q → Meets σ s p q (some (σ₁, new)) s₁ → Clears σ₁ s₁ (new ++ rest) o s' →
      Clears σ s ((a, b) :: rest) o s'

/-- The runs of unification. The last pair is on top of the stack. If bindings are left when the stack is empty, they
are followed to their ends one after the other, and those of a variable to itself are dropped. -/
inductive Attempts (s : Store) (pairs : List (Ref × Ref)) : Option Subst → Store → Prop
  | fail {s' : Store} : Clears .empty s pairs.reverse none s' → Attempts s pairs none s'
  | found {ω : Subst} {s₁ s' : Store} {ends : List (Var × Ref)} : Clears .empty s pairs.reverse (some ω) s₁ →
      ChasesAll ω s₁ ω.walk ends s' →
      Attempts s pairs (some (.ofList (ends.filter fun b => s'.node? b.2 ≠ some (.var b.1)))) s'

/-! ### No loop can end in two ways -/

theorem Follows.unique (h : Follows s σ r q) (h' : Follows s σ r q') : q = q' := by
  induction h with
  | rest free =>
      cases h' with
      | rest => rfl
      | move node bound =>
          rw [free _ node] at bound
          cases bound
  | move node bound _ ih =>
      cases h' with
      | rest free =>
          rw [free _ node] at bound
          cases bound
      | move node' bound' h' =>
          cases node.symm.trans node'
          cases bound.symm.trans bound'
          exact ih h'

theorem Searches.unique {stack : List Ref} {yes yes' : Bool} {t : Store} (h : Searches σ v s stack yes s')
    (h' : Searches σ v s stack yes' t) : yes = yes' ∧ s' = t := by
  induction h with
  | done =>
      cases h'
      exact ⟨rfl, rfl⟩
  | ground asked _ ih =>
      cases h' with
      | ground asked' h' =>
          cases asked.symm.trans asked'
          exact ih h'
      | found asked' => cases asked.symm.trans asked'
      | pass asked' => cases asked.symm.trans asked'
  | found asked follows here =>
      cases h' with
      | ground asked' => cases asked.symm.trans asked'
      | found asked' =>
          cases asked.symm.trans asked'
          exact ⟨rfl, rfl⟩
      | pass asked' follows' other =>
          cases asked.symm.trans asked'
          exact absurd (follows.unique follows' ▸ here) other
  | pass asked follows other _ ih =>
      cases h' with
      | ground asked' => cases asked.symm.trans asked'
      | found asked' follows' here =>
          cases asked.symm.trans asked'
          exact absurd (follows'.unique follows ▸ here) other
      | pass asked' follows' _ h' =>
          cases asked.symm.trans asked'
          cases follows.unique follows'
          exact ih h'

theorem Meets.unique {o o' : Option (Subst × List (Ref × Ref))} {t : Store} (h : Meets σ s p q o s')
    (h' : Meets σ s p q o' t) : o = o' ∧ s' = t := by
  have decided : ∀ {x : Option (Subst × List (Ref × Ref))}, o = x ∧ s' = s → o' = x ∧ t = s → o = o' ∧ s' = t := by
    rintro x ⟨rfl, rfl⟩ ⟨rfl, rfl⟩
    exact ⟨rfl, rfl⟩
  have searched : ∀ {v : Var} {stack : List Ref} {f : Bool → Option (Subst × List (Ref × Ref))},
      (∃ inside, Searches σ v s stack inside s' ∧ o = f inside) →
      (∃ inside, Searches σ v s stack inside t ∧ o' = f inside) → o = o' ∧ s' = t := by
    rintro v stack f ⟨inside, ran, rfl⟩ ⟨inside', ran', rfl⟩
    obtain ⟨rfl, rfl⟩ := ran.unique ran'
    exact ⟨rfl, rfl⟩
  unfold Meets at h h'
  split at h
  · rw [if_pos ‹_›] at h'
    exact decided h h'
  · rw [if_neg ‹_›] at h'
    split at h <;> simp only [*] at h'
    · exact decided h h'
    · exact searched h h'
    · exact searched h h'
    · exact decided h h'
    · exact decided h h'
    · exact decided h h'

theorem Clears.unique {o o' : Option Subst} {t : Store} (h : Clears σ s stack o s') (h' : Clears σ s stack o' t) :
    o = o' ∧ s' = t := by
  induction h with
  | done =>
      cases h'
      exact ⟨rfl, rfl⟩
  | fail left right met =>
      cases h' with
      | fail left' right' met' =>
          cases left.unique left'
          cases right.unique right'
          exact ⟨rfl, (met.unique met').2⟩
      | next left' right' met' =>
          cases left.unique left'
          cases right.unique right'
          cases (met.unique met').1
  | next left right met _ ih =>
      cases h' with
      | fail left' right' met' =>
          cases left.unique left'
          cases right.unique right'
          cases (met.unique met').1
      | next left' right' met' h' =>
          cases left.unique left'
          cases right.unique right'
          obtain ⟨same, rfl⟩ := met.unique met'
          cases same
          exact ih h'

theorem Chases.unique {t : Store} (h : Chases σ s r q s') (h' : Chases σ s r q' t) : q = q' ∧ s' = t := by
  induction h with
  | rest ran =>
      cases h' with
      | rest ran' =>
          cases ran.symm.trans ran'
          exact ⟨rfl, rfl⟩
      | move ran' moved =>
          cases ran.symm.trans ran'
          exact absurd rfl moved
  | move ran moved _ ih =>
      cases h' with
      | rest ran' =>
          cases ran.symm.trans ran'
          exact absurd rfl moved
      | move ran' _ h' =>
          cases ran.symm.trans ran'
          exact ih h'

theorem ChasesAll.unique {bs ends ends' : List (Var × Ref)} {t : Store} (h : ChasesAll σ s bs ends s')
    (h' : ChasesAll σ s bs ends' t) : ends = ends' ∧ s' = t := by
  induction h generalizing ends' with
  | nil =>
      cases h'
      exact ⟨rfl, rfl⟩
  | cons first _ ih =>
      cases h' with
      | cons first' h' =>
          obtain ⟨rfl, rfl⟩ := first.unique first'
          obtain ⟨rfl, rfl⟩ := ih h'
          exact ⟨rfl, rfl⟩

theorem Attempts.unique {o o' : Option Subst} {t : Store} (h : Attempts s pairs o s') (h' : Attempts s pairs o' t) :
    o = o' ∧ s' = t := by
  cases h with
  | fail cleared =>
      cases h' with
      | fail cleared' => exact ⟨rfl, (cleared.unique cleared').2⟩
      | found cleared' => cases (cleared.unique cleared').1
  | found cleared chased =>
      cases h' with
      | fail cleared' => cases (cleared.unique cleared').1
      | found cleared' chased' =>
          obtain ⟨same, rfl⟩ := cleared.unique cleared'
          cases same
          obtain ⟨rfl, rfl⟩ := chased.unique chased'
          exact ⟨rfl, rfl⟩

/-! ### Every loop ends -/

theorem followUpTo_follows {rank : Var → Nat} (wf : s.WellFormed) (ranked : s.Ranked σ rank)
    (hn : ∀ v, s.node? r = some (.var v) → ∀ q, σ.find? v = some q → σ.height rank v < n) :
    s.Follows σ r (s.followUpTo σ n r) := by
  induction n generalizing r with
  | zero =>
      refine .rest fun v node => ?_
      cases bound : σ.find? v with
      | none => rfl
      | some q => exact absurd (hn v node q bound) (Nat.not_lt_zero _)
  | succ n ih =>
      rw [followUpTo]
      cases node : s.node? r with
      | none => exact .rest fun v here => by cases node.symm.trans here
      | some top =>
          cases top with
          | app f args => exact .rest fun v here => by cases node.symm.trans here
          | var v =>
              cases bound : σ.find? v with
              | none =>
                  simp only [bound]
                  refine .rest fun w here => ?_
                  cases node.symm.trans here
                  exact bound
              | some q =>
                  simp only [bound]
                  refine .move node bound (ih fun w here p found => ?_)
                  have inside : w ∈ (s.term q).vars := by
                    rw [wf.below.term_var here]
                    exact Term.mem_vars_var.2 rfl
                  have lower := Subst.height_lt_height found (ranked v q bound w inside)
                  exact Nat.lt_of_lt_of_le lower (Nat.le_of_lt_succ (hn v node q bound))

theorem follow_follows (wf : s.WellFormed) (h : s.Resolves σ θ) (r : Ref) : s.Follows σ r (s.follow σ r) := by
  obtain ⟨rank, ranked⟩ := h.ranked
  refine followUpTo_follows wf ranked fun v _ q hv => ?_
  exact Nat.lt_of_lt_of_le (Subst.height_lt_card hv) Subst.card_support_le

theorem SameTerms.follows (same : SameTerms s s') (h : s.Follows σ r q) : s'.Follows σ r q := by
  induction h with
  | rest free => exact .rest fun v node => free v ((same.node? _).symm.trans node)
  | move node bound _ ih => exact .move ((same.node? _).trans node) bound ih

/-- What is found out about references on top of a stack is all that the rest of a search has of them. -/
def Searched (σ : Subst) (v : Var) (s : Store) (top : List Ref) (yes : Bool) (s' : Store) : Prop :=
  if yes then ∀ rest, Searches σ v s (top ++ rest) true s'
  else ∀ rest yes' t, Searches σ v s' rest yes' t → Searches σ v s (top ++ rest) yes' t

theorem Searched.nil : Searched σ v s [] false s := fun _ _ _ h => h

theorem Searched.cons {yes : Bool} {rs : List Ref} (h : Searched σ v s [r] false s₁)
    (h' : Searched σ v s₁ rs yes s') : Searched σ v s (r :: rs) yes s' := by
  cases yes with
  | true => exact fun rest => h _ _ _ (h' rest)
  | false => exact fun rest yes t later => h _ _ _ (h' rest yes t later)

theorem Searched.found {rs : List Ref} (h : Searched σ v s [r] true s') : Searched σ v s (r :: rs) true s' :=
  fun rest => h (rs ++ rest)

/-- The search below a reference is over when the stack is empty. -/
theorem Searched.searches {yes : Bool} (h : Searched σ v s [r] yes s') : Searches σ v s [r] yes s' := by
  cases yes with
  | true => exact h []
  | false => exact h [] false s' .done

theorem Searched.of_ground (asked : isGround r s = (true, s')) : Searched σ v s [r] false s' :=
  fun _ _ _ later => .ground asked later

theorem Searched.of_parts {yes : Bool} (asked : isGround r s = (false, s₁)) (follows : Follows s₁ σ r q)
    (other : s₁.node? q ≠ some (.var v)) (h : Searched σ v s₁ (s₁.parts q) yes s') : Searched σ v s [r] yes s' := by
  cases yes with
  | true => exact fun rest => .pass asked follows other (h rest)
  | false => exact fun rest yes t later => .pass asked follows other (h rest yes t later)

theorem anyM_searched {ask : Ref → StoreM Bool} {rs : List Ref} (wf : s'.WellFormed) (same : SameTerms s s')
    (step : ∀ r ∈ rs, ∀ s₁, s₁.WellFormed → SameTerms s s₁ → s₁.Ensures (ask r) fun yes s₂ =>
      SameTerms s s₂ ∧ Searched σ v s₁ [r] yes s₂) :
    s'.Ensures (rs.anyM ask) fun yes s₂ => Searched σ v s' rs yes s₂ := by
  induction rs generalizing s' with
  | nil => exact .pure wf .nil
  | cons r rs ih =>
      rw [List.anyM_cons]
      refine (step r List.mem_cons_self s' wf same).bind ?_
      rintro yes s₁ wf₁ - ⟨same₁, first⟩
      cases yes with
      | true => exact .pure wf₁ first.found
      | false =>
          have rest := ih wf₁ same₁ fun q hq => step q (List.mem_cons_of_mem _ hq)
          exact rest.mono fun _ _ _ _ later => first.cons later

/-- The arguments of an application are searched one after the other, as each of them is by itself. -/
theorem args_searched {f : Head} {args : List Ref} (wf : s.WellFormed) (h : s.Resolves σ θ) (small : q < s.size)
    (node : s.node? q = some (.app f args)) (deep : ((s.term q).subst θ).depth ≤ n + 1) (wf' : s'.WellFormed)
    (same : SameTerms s s')
    (each : ∀ {r : Ref} {s' : Store}, r < s.size → ((s.term r).subst θ).depth ≤ n → s'.WellFormed → SameTerms s s' →
      s'.Ensures (reachesWithin σ v n r) fun yes s'' => Searched σ v s' [r] yes s'') :
    s'.Ensures (args.reverse.anyM (reachesWithin σ v n)) fun yes s'' => Searched σ v s' args.reverse yes s'' := by
  rw [wf.below.term_app node, Term.subst_app] at deep
  refine anyM_searched wf' same fun a ha s₁ wf₁ same₁ => ?_
  have ha' := List.mem_reverse.1 ha
  have known := Nat.lt_trans (wf.below node a ha') small
  have shallow : ((s.term a).subst θ).depth < n + 1 := by
    refine Nat.lt_of_lt_of_le (Term.depth_lt_of_mem (f := f) ?_) deep
    exact List.mem_map_of_mem (List.mem_map_of_mem ha')
  have asked := reachesWithin_spec (v := v) wf h known (Nat.le_of_lt_succ shallow) wf₁ same₁
  exact (asked.and (each known (Nat.le_of_lt_succ shallow) wf₁ same₁)).mono fun _ _ _ _ h => ⟨h.1.1, h.2⟩

theorem reachesWithin_searched (wf : s.WellFormed) (h : s.Resolves σ θ) (hr : r < s.size)
    (deep : ((s.term r).subst θ).depth ≤ n) (wf' : s'.WellFormed) (same : SameTerms s s') :
    s'.Ensures (reachesWithin σ v n r) fun yes s'' => Searched σ v s' [r] yes s'' := by
  induction n generalizing s' r with
  | zero => exact absurd deep (Nat.not_le_of_lt Term.depth_pos)
  | succ n ih =>
      rw [reachesWithin]
      have asked : s'.Ensures (isGround r) fun ground s₁ => SameTerms s s₁ ∧ isGround r s' = (ground, s₁) := by
        obtain ⟨wf₁, le₁, -, same₁⟩ := isGround_spec wf' (same.denotes.2 (denotes_term hr))
        exact ⟨wf₁, le₁, same.trans same₁, rfl⟩
      refine asked.bind ?_
      rintro ground s₁ wf₁ - ⟨same₁, asked⟩
      cases ground with
      | true => exact .pure wf₁ (.of_ground asked)
      | false =>
          refine (Ensures.get wf₁).bind ?_
          rintro _ s₂ - - ⟨rfl, rfl⟩
          have follows : s₂.Follows σ r (s.follow σ r) := same₁.follows (follow_follows wf h r)
          rw [same₁.follow, same₁.node?]
          obtain ⟨small, eq, -, -⟩ := follow_spec wf h hr
          rw [← eq θ h.solves] at deep
          obtain ⟨node, hnode⟩ := exists_node small
          have hnode' : s₂.node? (s.follow σ r) = some node := (same₁.node? _).trans hnode
          rw [hnode]
          cases node with
          | var w =>
              by_cases here : w = v
              · subst here
                refine .pure wf₁ ?_
                rw [decide_eq_true rfl]
                exact fun rest => .found asked follows hnode'
              · refine .pure wf₁ ?_
                rw [decide_eq_false here]
                refine .of_parts asked follows (fun no => here ?_) ?_
                · cases hnode'.symm.trans no
                  rfl
                · rw [parts, hnode']
                  exact .nil
          | app f args =>
              refine (args_searched wf h small hnode deep wf₁ same₁ ih).mono fun yes s₃ _ _ searched => ?_
              refine .of_parts asked follows (fun no => ?_) ?_
              · cases hnode'.symm.trans no
              · rw [parts, hnode']
                exact searched

/-- What becomes of pairs on top of a stack is all that the rest of a run has of them. -/
def Cleared (σ : Subst) (s : Store) (top : List (Ref × Ref)) : Option Subst → Store → Prop
  | none, s' => ∀ rest, Clears σ s (top ++ rest) none s'
  | some σ', s' => ∀ rest o t, Clears σ' s' rest o t → Clears σ s (top ++ rest) o t

theorem Cleared.nil : Cleared σ s [] (some σ) s := fun _ _ _ h => h

theorem Cleared.cons {o : Option Subst} (h : Cleared σ s [pair] (some ω) s₁) (h' : Cleared ω s₁ pairs o s') :
    Cleared σ s (pair :: pairs) o s' := by
  cases o with
  | none => exact fun rest => h _ _ _ (h' rest)
  | some σ' => exact fun rest o t later => h _ _ _ (h' rest o t later)

theorem Cleared.fail (h : Cleared σ s [pair] none s') : Cleared σ s (pair :: pairs) none s' :=
  fun rest => h (pairs ++ rest)

/-- The loop is over when the stack is empty. -/
theorem Cleared.clears {o : Option Subst} (h : Cleared σ s pairs o s') : Clears σ s pairs o s' := by
  cases o with
  | none =>
      have all := h []
      rwa [List.append_nil] at all
  | some σ' =>
      have all := h [] _ _ .done
      rwa [List.append_nil] at all

section
variable (left : Follows s σ a p) (right : Follows s σ b q)
include left right

theorem Cleared.of_none (met : Meets σ s p q none s') : Cleared σ s [(a, b)] none s' :=
  fun _ => .fail left right met

/-- The pairs that a turn puts on the stack are treated before the others. -/
theorem Cleared.of_some {o : Option Subst} (met : Meets σ s p q (some (ω, pairs)) s₁)
    (h : Cleared ω s₁ pairs o s') : Cleared σ s [(a, b)] o s' := by
  cases o with
  | none => exact fun rest => .next left right met (h rest)
  | some σ' => exact fun rest o t later => .next left right met (h rest o t later)

end

theorem foldlM_cleared {f : Subst → Ref × Ref → OptionT StoreM Subst} {I : Subst → Prop} (wf' : s'.WellFormed)
    (same : SameTerms s s') (hσ : I σ)
    (step : ∀ pair ∈ pairs, ∀ σ s', s'.WellFormed → SameTerms s s' → I σ → s'.Ensures (f σ pair).run fun o s'' =>
      SameTerms s s'' ∧ (∀ σ', o = some σ' → I σ') ∧ Cleared σ s' [pair] o s'') :
    s'.Ensures (pairs.foldlM f σ).run fun o s'' => Cleared σ s' pairs o s'' := by
  induction pairs generalizing σ s' with
  | nil => exact .pureOption wf' .nil
  | cons pair pairs ih =>
      rw [List.foldlM_cons]
      refine Ensures.bindOption (step pair List.mem_cons_self σ s' wf' same hσ) ?_ ?_
      · rintro σ₁ s₁ wf₁ - ⟨same₁, inv, first⟩
        have rest := ih wf₁ same₁ (inv σ₁ rfl) fun pair hpair => step pair (List.mem_cons_of_mem _ hpair)
        exact rest.mono fun o _ _ _ later => first.cons later
      · rintro s₁ - - ⟨-, -, first⟩
        exact first.fail

/-- Binding a variable that stands for itself, unless it is inside, is a turn of the loop. -/
theorem bindUnlessInside_cleared (wf : s.WellFormed) (h : s.Resolves σ θ) (hq : q < s.size)
    (deep : ((s.term q).subst θ).depth ≤ n) (wf' : s'.WellFormed) (same : SameTerms s s')
    (left : s'.Follows σ a p) (right : s'.Follows σ b r)
    (turn : ∀ inside s'', Searches σ v s' [q] inside s'' →
      Meets σ s' p r (if inside then none else some (σ.bind v q, [])) s'') :
    s'.Ensures (do
      if ← reachesWithin σ v n q then failure
      return σ.bind v q : OptionT StoreM Subst).run fun o s'' => Cleared σ s' [(a, b)] o s'' := by
  refine Ensures.bindLift (reachesWithin_searched (v := v) wf h hq deep wf' same) fun inside s₁ wf₁ _ searched => ?_
  have met := turn inside s₁ searched.searches
  cases inside with
  | true => exact .failure wf₁ (.of_none left right met)
  | false => exact .pureOption wf₁ (.of_some left right met .nil)

/-- The arguments of two applications are unified one after the other, as each two of them are by themselves. -/
theorem args_cleared {f g : Head} {ss ts : List Ref} (wf : s.WellFormed) (hP : s.Hereditary P)
    (hp : s.Fits P σ (n + 1) p) (hq : s.Fits P σ (n + 1) q) (nodeP : s.node? p = some (.app f ss))
    (nodeQ : s.node? q = some (.app g ts)) (hσ : s.Resolvable P σ) (wf' : s'.WellFormed) (same : SameTerms s s')
    (each : ∀ {a b : Ref} {σ : Subst} {s' : Store}, s.Fits P σ n a → s.Fits P σ n b → s.Resolvable P σ →
      s'.WellFormed → SameTerms s s' →
      s'.Ensures (unifyWithin n σ (a, b)).run fun o s'' => Cleared σ s' [(a, b)] o s'') :
    s'.Ensures ((ss.zip ts).reverse.foldlM (unifyWithin n) σ).run fun o s'' =>
      Cleared σ s' (ss.zip ts).reverse o s'' := by
  -- later bindings have fewer solutions, so that the depths still fit
  refine foldlM_cleared (I := fun σ' => s.Resolvable P σ' ∧ ∀ τ, s.Solves σ' τ → s.Solves σ τ) wf' same
    ⟨hσ, fun _ h => h⟩ ?_
  rintro pair hpair σ' s₁ wf₁ same₁ ⟨hσ', le'⟩
  obtain ⟨hl, hr⟩ := List.of_mem_zip (List.mem_reverse.1 hpair)
  have left := (hp.arg wf hP nodeP hl).mono le'
  have right := (hq.arg wf hP nodeQ hr).mono le'
  refine ((unifyWithin_spec wf hP left right hσ' wf₁ same₁).and (each left right hσ' wf₁ same₁)).mono ?_
  rintro o s₂ - - ⟨⟨same₂, h⟩, cleared⟩
  refine ⟨same₂, ?_, cleared⟩
  rintro σ'' rfl
  exact ⟨h.1, fun τ hτ => le' τ ((h.2 τ).1 hτ).1⟩

theorem unifyWithin_cleared (wf : s.WellFormed) (hP : s.Hereditary P) (ha : s.Fits P σ n a) (hb : s.Fits P σ n b)
    (hσ : s.Resolvable P σ) (wf' : s'.WellFormed) (same : SameTerms s s') :
    s'.Ensures (unifyWithin n σ (a, b)).run fun o s'' => Cleared σ s' [(a, b)] o s'' := by
  induction n generalizing s' a b σ with
  | zero =>
      obtain ⟨θ, hθ, ranges⟩ := hσ
      exact absurd (ha.ample σ θ hθ ranges hθ.solves) (Nat.not_le_of_lt Term.depth_pos)
  | succ n ih =>
      obtain ⟨θ, hθ, ranges⟩ := hσ
      rw [unifyWithin]
      refine Ensures.bindLift (Ensures.get wf') ?_
      rintro _ s₁ - - ⟨rfl, rfl⟩
      have left : s₁.Follows σ a (s.follow σ a) := same.follows (follow_follows wf hθ a)
      have right : s₁.Follows σ b (s.follow σ b) := same.follows (follow_follows wf hθ b)
      simp only [same.follow]
      replace ha := ha.follow wf hθ ranges
      replace hb := hb.follow wf hθ ranges
      generalize s.follow σ a = p at *
      generalize s.follow σ b = q at *
      split
      · rename_i eq
        refine .pureOption wf' (.of_some left right ?_ .nil)
        rw [Meets, if_pos eq]
        exact ⟨rfl, rfl⟩
      · rename_i ne
        obtain ⟨nodeP, hnodeP⟩ := exists_node ha.known
        obtain ⟨nodeQ, hnodeQ⟩ := exists_node hb.known
        have deepP := ha.ample σ θ hθ ranges hθ.solves
        have deepQ := hb.ample σ θ hθ ranges hθ.solves
        have meets : ∀ {o s'}, Meets σ s₁ p q o s' ↔ _ := fun {o s'} => by rw [Meets, if_neg ne]
        simp only [same.node?, hnodeP, hnodeQ] at meets ⊢
        cases nodeP with
        | var v =>
            cases nodeQ with
            | var w => exact .pureOption wf' (.of_some left right (meets.2 ⟨rfl, rfl⟩) .nil)
            | app g ts =>
                exact bindUnlessInside_cleared wf hθ hb.known deepQ wf' same left right
                  fun inside _ ran => meets.2 ⟨inside, ran, rfl⟩
        | app f ss =>
            cases nodeQ with
            | var w =>
                exact bindUnlessInside_cleared wf hθ ha.known deepP wf' same left right
                  fun inside _ ran => meets.2 ⟨inside, ran, rfl⟩
            | app g ts =>
                refine Ensures.bindGuard wf' (fun fits => ?_) fun clash => .of_none left right (meets.2 ⟨?_, rfl⟩)
                · have turn := meets.2 ⟨(if_pos fits).symm, rfl⟩
                  have inner := args_cleared wf hP ha hb hnodeP hnodeQ ⟨θ, hθ, ranges⟩ wf' same ih
                  exact inner.mono fun _ _ _ _ cleared => .of_some left right turn cleared
                · exact (if_neg clash).symm

/-- Unification ends, and what it finds is what its loops find. -/
theorem unifyPairs?_attempts (wf : s.WellFormed) (known : ∀ pair ∈ pairs, pair.1 < s.size ∧ pair.2 < s.size) :
    s.Ensures (unifyPairs? pairs).run fun o s' => Attempts s pairs o s' := by
  have hP : s.Hereditary fun t => ∃ r, s.Denotes r t := ⟨Denotes.exists_arg wf, id⟩
  have inputs : ∀ pair ∈ pairs, (∃ r, s.Denotes r (s.term pair.1)) ∧ ∃ r, s.Denotes r (s.term pair.2) :=
    fun pair hpair => ⟨⟨_, denotes_term (known pair hpair).1⟩, _, denotes_term (known pair hpair).2⟩
  have cleared : s.Ensures (pairs.reverse.foldlM (unifyWithin (s.bound * s.bound)) .empty).run fun o s' =>
      Cleared .empty s pairs.reverse o s' := by
    refine foldlM_cleared (I := s.Resolvable fun t => ∃ r, s.Denotes r t) wf (.refl s) resolvable_empty ?_
    intro pair hpair σ s' wf' same hσ
    have hpair := List.mem_reverse.1 hpair
    obtain ⟨small, small'⟩ := known pair hpair
    obtain ⟨ha, hb⟩ := inputs pair hpair
    have left := Fits.mk small ha (hP.ample (σ := σ) wf (Nat.le_refl _) small)
    have right := Fits.mk small' hb (hP.ample (σ := σ) wf (Nat.le_refl _) small')
    refine ((unifyWithin_spec wf hP left right hσ wf' same).and
      (unifyWithin_cleared wf hP left right hσ wf' same)).mono ?_
    rintro o s₁ - - ⟨⟨same₁, h⟩, cleared⟩
    exact ⟨same₁, fun σ' eq => by subst eq; exact h.1, cleared⟩
  rw [unifyPairs?]
  refine Ensures.bindLift (Ensures.get wf) ?_
  rintro _ s₁ - - ⟨rfl, rfl⟩
  refine Ensures.bindOption ((unifyAll_spec wf hP known inputs (Nat.le_refl _)).and cleared) ?_ ?_
  · rintro ω s₂ wf₂ le₂ ⟨⟨-, ⟨θ, hθ, -⟩, -⟩, cleared⟩
    refine Ensures.map (resolve_spec wf₂ (hθ.mono wf wf₂ le₂).chains) ?_
    rintro σ s₃ - - ⟨-, -, -, ends, chased, rfl⟩
    exact .found cleared.clears chased
  · rintro s₂ - - ⟨-, cleared⟩
    exact .fail cleared.clears

end OrderedCompletion.Store
