import OrderedCompletion.Proofs.Store

/-! Interning and the variables of stored terms. -/

namespace OrderedCompletion.Store

variable {s s' : Store} {r q : Ref} {t : Term}

/-- The two stores have the same terms, whatever they have noted. -/
def SameTerms (s s' : Store) : Prop := s'.entries = s.entries ∧ s'.refs = s.refs

theorem SameTerms.refl (s : Store) : SameTerms s s := ⟨rfl, rfl⟩

theorem SameTerms.trans {s'' : Store} (h : SameTerms s s') (h' : SameTerms s' s'') :
    SameTerms s s'' := ⟨h'.1.trans h.1, h'.2.trans h.2⟩

theorem SameTerms.node? (h : SameTerms s s') (r : Ref) : s'.node? r = s.node? r := by
  rw [Store.node?, Store.node?, h.1]

theorem SameTerms.size (h : SameTerms s s') : s'.size = s.size := by
  rw [Store.size, Store.size, h.1]

theorem SameTerms.termWithin (h : SameTerms s s') (n : Nat) (r : Ref) :
    s'.termWithin n r = s.termWithin n r := by
  induction n generalizing r with
  | zero => rfl
  | succ n ih =>
      rw [Store.termWithin, Store.termWithin, h.node? r]
      cases s.node? r with
      | none => rfl
      | some node =>
          cases node with
          | var v => rfl
          | app f args =>
              simp only [Term.app.injEq, true_and, mapShared_eq_map]
              exact List.map_congr_left fun a _ => ih a

theorem SameTerms.term (h : SameTerms s s') (r : Ref) : s'.term r = s.term r := by
  rw [Store.term, Store.term, bound, bound, h.size, h.termWithin]

theorem SameTerms.le (h : SameTerms s s') : s ≤ s' := fun r _ hr => (h.node? r).trans hr

theorem SameTerms.denotes (h : SameTerms s s') : s'.Denotes r t ↔ s.Denotes r t := by
  rw [Denotes, Denotes, h.size, h.term]

theorem SameTerms.wellFormed (h : SameTerms s s') (wf : s.WellFormed)
    (noted : ∀ {r : Ref} {vs : List Var}, s'.varsOf[r]? = some vs →
      r < s.size ∧ vs = (s.term r).vars) : s'.WellFormed where
  below := fun r _ _ hr => wf.below ((h.node? r).symm.trans hr)
  index := by
    intro node r
    rw [h.node? r, h.2]
    exact wf.index
  noted := by
    intro r vs hr
    rw [h.size, h.term]
    exact noted hr

theorem empty_wellFormed : empty.WellFormed where
  below := by
    intro r f args h
    simp [empty, node?] at h
  index := by
    intro node r
    simp [empty, node?]
  noted := by
    intro r vs h
    simp [empty] at h

/-- The node is one that may enter the store: its arguments are there. -/
def Admits (s : Store) : Node → Prop
  | .var _ => True
  | .app _ args => ∀ a ∈ args, a < s.size

/-- The store after a new node has entered. -/
def pushed (s : Store) (node : Node) : Store :=
  { s with entries := s.entries.push ⟨node, s.nodeSize node⟩, refs := s.refs.insert node s.size }

theorem node?_pushed (node : Node) (r : Ref) :
    (s.pushed node).node? r = if r = s.size then some node else s.node? r := by
  rw [pushed, node?, size, Array.getElem?_push]
  split
  · rfl
  · rfl

theorem le_pushed (node : Node) : s ≤ s.pushed node := by
  intro r old hr
  rw [node?_pushed, if_neg (Nat.ne_of_lt (lt_size_of_node ⟨old, hr⟩))]
  exact hr

theorem descends_pushed (below : s.Descends) {node : Node} (admits : s.Admits node) :
    (s.pushed node).Descends := by
  intro r f args hr a ha
  rw [node?_pushed] at hr
  split at hr
  · rename_i top
    cases hr
    rw [top]
    exact admits a ha
  · exact below hr a ha

theorem size_pushed (node : Node) : (s.pushed node).size = s.size + 1 := by
  simp [pushed, size]

theorem pushed_wellFormed (wf : s.WellFormed) {node : Node} (fresh : s.refs.find? node = none)
    (admits : s.Admits node) : (s.pushed node).WellFormed where
  below := descends_pushed wf.below admits
  index := by
    intro other r
    change (s.refs.insert node s.size).find? other = some r ↔ _
    rw [Index.find?_insert, node?_pushed]
    by_cases same : other = node
    · subst same
      rw [if_pos rfl]
      by_cases top : r = s.size
      · simp [top]
      · rw [if_neg top, ← wf.index, fresh]
        simp [Ne.symm top]
    · rw [if_neg same, wf.index]
      by_cases top : r = s.size
      · subst top
        simp [node?_eq_none.2, Ne.symm same]
      · rw [if_neg top]
  noted := by
    intro r vs hr
    obtain ⟨lt, rfl⟩ := wf.noted hr
    rw [size_pushed]
    refine ⟨Nat.lt_succ_of_lt lt, ?_⟩
    rw [wf.below.term_of_le (descends_pushed wf.below admits) (le_pushed node) lt]

theorem intern_spec (wf : s.WellFormed) (node : Node) (admits : s.Admits node) :
    s.Ensures (intern node) fun r s' => s'.node? r = some node := by
  cases found : s.refs.find? node with
  | some r =>
      have same : intern node s = (r, s) := by rw [intern, found]
      rw [Ensures, same]
      exact ⟨wf, le_refl s, wf.index.1 found⟩
  | none =>
      have same : intern node s = (s.size, s.pushed node) := by rw [intern, found]; rfl
      rw [Ensures, same]
      refine ⟨pushed_wellFormed wf found admits, le_pushed node, ?_⟩
      rw [node?_pushed, if_pos rfl]

theorem var_spec (wf : s.WellFormed) (v : Var) :
    s.Ensures (var v) fun r s' => s'.Denotes r (.var v) :=
  (intern_spec wf (.var v) trivial).mono fun _ _ wf' _ hr => wf'.denotes_var hr

theorem app_spec (wf : s.WellFormed) {f : Head} {args : List Ref} {ts : List Term}
    (h : s.DenotesAll args ts) : s.Ensures (app f args) fun r s' => s'.Denotes r (.app f ts) := by
  have admits : s.Admits (.app f args) := by
    intro a ha
    clear wf
    induction h with
    | nil => cases ha
    | cons hd _ ih =>
        rcases List.mem_cons.1 ha with rfl | later
        · exact hd.1
        · exact ih later
  refine (intern_spec wf _ admits).mono fun r s' wf' le hr => ⟨lt_size_of_node ⟨_, hr⟩, ?_⟩
  rw [wf'.below.term_app hr, (h.mono wf wf' le).map_term]

theorem eq_map_of_forall₂ {α β : Type} {g : α → β} {as : List α} {bs : List β}
    (h : List.Forall₂ (fun a b => b = g a) as bs) : bs = as.map g := by
  induction h with
  | nil => rfl
  | cons hd _ ih => rw [List.map_cons, hd, ih]

theorem exists_of_forall₂_right {α β : Type} {R : α → β → Prop} {as : List α} {bs : List β} {b : β}
    (h : List.Forall₂ R as bs) (hb : b ∈ bs) : ∃ a ∈ as, R a b := by
  induction h with
  | nil => cases hb
  | @cons a _ _ _ hd _ ih =>
      rcases List.mem_cons.1 hb with rfl | later
      · exact ⟨a, List.mem_cons_self, hd⟩
      · obtain ⟨a, ha, hab⟩ := ih later
        exact ⟨a, List.mem_cons_of_mem _ ha, hab⟩

theorem exists_of_forall₂_left {α β : Type} {R : α → β → Prop} {as : List α} {bs : List β} {a : α}
    (h : List.Forall₂ R as bs) (ha : a ∈ as) : ∃ b ∈ bs, R a b :=
  exists_of_forall₂_right h.flip ha

/-- What an action ensures for each element of a list, if it keeps an invariant and what holds of an
outcome goes on to hold. -/
theorem Ensures.mapM {α β : Type} {f : α → StoreM β} {as : List α} {I : Store → Prop}
    {Q : α → β → Store → Prop} (wf : s.WellFormed) (inv : I s)
    (later : ∀ a b s₁ s₂, s₁.WellFormed → s₂.WellFormed → s₁ ≤ s₂ → Q a b s₁ → Q a b s₂)
    (h : ∀ a ∈ as, ∀ s', s'.WellFormed → s ≤ s' → I s' →
      s'.Ensures (f a) fun b s'' => I s'' ∧ Q a b s'') :
    s.Ensures (as.mapM f) fun bs s' => I s' ∧ List.Forall₂ (fun a b => Q a b s') as bs := by
  induction as generalizing s with
  | nil => exact .pure wf ⟨inv, .nil⟩
  | cons a as ih =>
      rw [List.mapM_cons]
      refine (h a (by simp) s wf (le_refl s) inv).bind fun b s₁ wf₁ le₁ hb => ?_
      have rest := ih wf₁ hb.1 fun a' ha s' wf' le => h a' (by simp [ha]) s' wf' (le₁.trans le)
      refine rest.bind fun bs s₂ wf₂ le₂ hbs => .pure wf₂ ⟨hbs.1, .cons ?_ hbs.2⟩
      exact later a b s₁ s₂ wf₁ wf₂ le₂ hb.2

/-- A search asks one element after the other. -/
theorem Ensures.anyM {α : Type} {p : α → StoreM Bool} {as : List α} {I : Store → Prop} {P : α → Prop}
    (wf : s.WellFormed) (inv : I s)
    (h : ∀ a ∈ as, ∀ s', s'.WellFormed → s ≤ s' → I s' →
      s'.Ensures (p a) fun b s'' => I s'' ∧ (b = true ↔ P a)) :
    s.Ensures (as.anyM p) fun b s' => I s' ∧ (b = true ↔ ∃ a ∈ as, P a) := by
  induction as generalizing s with
  | nil => exact .pure wf ⟨inv, by simp⟩
  | cons a as ih =>
      rw [List.anyM]
      refine (h a (by simp) s wf (le_refl s) inv).bind fun b s₁ wf₁ le₁ hb => ?_
      cases b with
      | true => exact .pure wf₁ ⟨hb.1, fun _ => ⟨a, by simp, hb.2.1 rfl⟩, fun _ => rfl⟩
      | false =>
          have no : ¬ P a := fun ha => by cases hb.2.2 ha
          have rest := ih wf₁ hb.1 fun a' ha s' wf' le => h a' (by simp [ha]) s' wf' (le₁.trans le)
          refine rest.mono fun b s₂ _ _ h => ⟨h.1, ?_⟩
          rw [h.2]
          simp [no]

theorem Ensures.allM {α : Type} {p : α → StoreM Bool} {as : List α} {I : Store → Prop} {P : α → Prop}
    (wf : s.WellFormed) (inv : I s)
    (h : ∀ a ∈ as, ∀ s', s'.WellFormed → s ≤ s' → I s' →
      s'.Ensures (p a) fun b s'' => I s'' ∧ (b = true ↔ P a)) :
    s.Ensures (as.allM p) fun b s' => I s' ∧ (b = true ↔ ∀ a ∈ as, P a) := by
  induction as generalizing s with
  | nil => exact .pure wf ⟨inv, by simp⟩
  | cons a as ih =>
      rw [List.allM]
      refine (h a (by simp) s wf (le_refl s) inv).bind fun b s₁ wf₁ le₁ hb => ?_
      cases b with
      | false =>
          have no : ¬ P a := fun ha => by cases hb.2.2 ha
          exact .pure wf₁ ⟨hb.1, by simp [no]⟩
      | true =>
          have yes : P a := hb.2.1 rfl
          have rest := ih wf₁ hb.1 fun a' ha s' wf' le => h a' (by simp [ha]) s' wf' (le₁.trans le)
          refine rest.mono fun b s₂ _ _ h => ⟨h.1, ?_⟩
          rw [h.2]
          simp [yes]

theorem Ensures.filterM {α : Type} {p : α → StoreM Bool} {as : List α} {I : Store → Prop}
    {P : α → Prop} (wf : s.WellFormed) (inv : I s)
    (h : ∀ a ∈ as, ∀ s', s'.WellFormed → s ≤ s' → I s' →
      s'.Ensures (p a) fun b s'' => I s'' ∧ (b = true ↔ P a)) :
    s.Ensures (as.filterM p) fun out s' => I s' ∧ ∀ a, a ∈ out ↔ a ∈ as ∧ P a := by
  suffices gen : ∀ acc : List α, s.Ensures (as.filterAuxM p acc) fun out s' =>
      I s' ∧ ∀ a, a ∈ out ↔ a ∈ acc ∨ a ∈ as ∧ P a by
    refine (gen []).bind fun out s' wf' _ h => .pure wf' ⟨h.1, fun a => ?_⟩
    rw [List.mem_reverse, h.2]
    simp
  induction as generalizing s with
  | nil => exact fun acc => .pure wf ⟨inv, by simp⟩
  | cons a as ih =>
      intro acc
      rw [List.filterAuxM]
      refine (h a (by simp) s wf (le_refl s) inv).bind fun b s₁ wf₁ le₁ hb => ?_
      have rest := ih wf₁ hb.1 (fun a' ha s' wf' le => h a' (by simp [ha]) s' wf' (le₁.trans le))
        (cond b (a :: acc) acc)
      refine rest.mono fun out s₂ _ _ h => ⟨h.1, fun x => ?_⟩
      rw [h.2]
      cases b with
      | true =>
          have yes : P a := hb.2.1 rfl
          simp only [cond_true, List.mem_cons]
          constructor
          · rintro ((rfl | hx) | hx)
            · exact .inr ⟨.inl rfl, yes⟩
            · exact .inl hx
            · exact .inr ⟨.inr hx.1, hx.2⟩
          · rintro (hx | ⟨rfl | hx, hP⟩)
            · exact .inl (.inr hx)
            · exact .inl (.inl rfl)
            · exact .inr ⟨hx, hP⟩
      | false =>
          have no : ¬ P a := fun ha => by cases hb.2.2 ha
          simp only [cond_false, List.mem_cons]
          constructor
          · exact fun hx => hx.imp_right fun hx => ⟨.inr hx.1, hx.2⟩
          · rintro (hx | ⟨rfl | hx, hP⟩)
            · exact .inl hx
            · exact absurd hP no
            · exact .inr ⟨hx, hP⟩

/-- Notes the variables of a term. -/
theorem noteVars_spec (wf : s.WellFormed) (hr : r < s.size) {vs : List Var}
    (hvs : vs = (s.term r).vars) :
    s.Ensures (modify fun s => { s with varsOf := s.varsOf.insert r vs })
      fun _ s' => SameTerms s s' := by
  have same : SameTerms s { s with varsOf := s.varsOf.insert r vs } := ⟨rfl, rfl⟩
  refine ⟨same.wellFormed wf fun {q ws} hq => ?_, same.le, same⟩
  change (s.varsOf.insert r vs)[q]? = some ws at hq
  rw [Std.TreeMap.getElem?_insert] at hq
  split at hq
  · rename_i eq
    rw [Std.LawfulEqCmp.compare_eq_iff_eq] at eq
    cases hq
    subst eq
    exact ⟨hr, hvs⟩
  · exact wf.noted hq

theorem varsWithin_spec (wf : s.WellFormed) {n : Nat} (hr : r < s.size) (hn : r < n) :
    s.Ensures (varsWithin n r) fun vs s' => vs = (s.term r).vars ∧ SameTerms s s' := by
  induction n generalizing s r with
  | zero => exact absurd hn (Nat.not_lt_zero r)
  | succ n ih =>
      rw [varsWithin]
      refine (Ensures.get wf).bind ?_
      rintro _ s' - - ⟨rfl, rfl⟩
      split
      · rename_i vs noted
        exact .pure wf ⟨(wf.noted noted).2, .refl _⟩
      · refine (Ensures.get wf).bind ?_
        rintro _ s' - - ⟨rfl, rfl⟩
        extract_lets note
        have noted : ∀ (vs : List Var) (s₁ : Store), s₁.WellFormed → SameTerms s' s₁ →
            vs = (s'.term r).vars →
            s₁.Ensures (note vs) fun vs s'' => vs = (s'.term r).vars ∧ SameTerms s' s'' := by
          intro vs s₁ wf₁ same hvs
          refine (noteVars_spec wf₁ (same.size ▸ hr) (by rw [hvs, same.term])).bind ?_
          exact fun _ s₂ wf₂ _ same₂ => .pure wf₂ ⟨hvs, same.trans same₂⟩
        obtain ⟨node, hnode⟩ := exists_node hr
        rw [hnode]
        cases node with
        | var v => exact noted _ _ wf (.refl _) (by rw [wf.below.term_var hnode]; rfl)
        | app f args =>
            have parts : s'.Ensures (args.mapM (varsWithin n)) fun parts s₁ =>
                SameTerms s' s₁ ∧ List.Forall₂ (fun a vs => vs = (s'.term a).vars) args parts := by
              refine Ensures.mapM wf (.refl _) (fun _ _ _ _ _ _ _ h => h) fun a ha s₁ wf₁ _ same => ?_
              have lt := wf.below hnode a ha
              have small : a < s₁.size := by rw [same.size]; exact Nat.lt_trans lt hr
              refine (ih wf₁ small (Nat.lt_of_lt_of_le lt (Nat.le_of_lt_succ hn))).mono ?_
              exact fun vs s₂ _ _ h => ⟨same.trans h.2, by rw [h.1, same.term]⟩
            refine parts.bind fun parts s₁ wf₁ _ h => noted _ _ wf₁ h.1 ?_
            rw [eq_map_of_forall₂ h.2, wf.below.term_app hnode, Term.vars, Term.varsList_eq_flatten,
              List.map_map]
            rfl

theorem vars_spec (wf : s.WellFormed) (hd : s.Denotes r t) :
    s.Ensures (vars r) fun vs s' => vs = t.vars ∧ SameTerms s s' := by
  obtain ⟨hr, rfl⟩ := hd
  refine (Ensures.get wf).bind ?_
  rintro _ s' - - ⟨rfl, rfl⟩
  exact varsWithin_spec wf hr (Nat.lt_succ_of_lt hr)

theorem isGround_spec (wf : s.WellFormed) (hd : s.Denotes r t) :
    s.Ensures (isGround r) fun b s' => b = t.vars.isEmpty ∧ SameTerms s s' :=
  (vars_spec wf hd).bind fun _ _ wf' _ h => .pure wf' ⟨by rw [h.1], h.2⟩

theorem occurs_spec (wf : s.WellFormed) (hd : s.Denotes r t) (v : Var) :
    s.Ensures (occurs v r) fun b s' => b = t.vars.contains v ∧ SameTerms s s' :=
  (vars_spec wf hd).bind fun _ _ wf' _ h => .pure wf' ⟨by rw [h.1], h.2⟩

end OrderedCompletion.Store
