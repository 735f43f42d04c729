import OrderedCompletion.Proofs.Effects

/-! Rules and equations that reduce each other go on saying the same. -/

namespace OrderedCompletion

theorem Text.sortByText_perm {α : Type} (text : α → String) (as : List α) :
    (sortByText text as).Perm as := by
  have inserted : ∀ {β : Type} (le : β → β → Bool) (b : β) (bs : List β),
      (insertBy le b bs).Perm (b :: bs) := by
    intro β le b bs
    induction bs with
    | nil => exact .refl _
    | cons d ds ih =>
        rw [insertBy]
        split
        · exact .refl _
        · exact (ih.cons d).trans (.swap b d ds)
  have sorted : ∀ {β : Type} (le : β → β → Bool) (bs : List β), (sortBy le bs).Perm bs := by
    intro β le bs
    induction bs with
    | nil => exact .refl _
    | cons d ds ih => exact (inserted le d (sortBy le ds)).trans (ih.cons d)
  have texts := (sorted (fun a b => shorterFirst a.1 b.1) (as.map fun a => (text a, a))).map (·.2)
  rwa [List.map_map, show (Prod.snd ∘ fun a => (text a, a)) = id from rfl, List.map_id] at texts

namespace Engine

variable {G : Gauge} {ctx : Context} {e e' : Engine} {s s' : Store} {eq rule ab : Equation}
variable {a b l r : Term}

/-- A rule whose left side another rule reduces goes back to the worklist. -/
theorem collapse_evolves {lhs : Ref} (fine : Fine G s e) (hab : ab ∈ e.rules)
    (apart : rule ≠ ab) (means : s.Means rule (l, r)) (hl : l.Over G.sig) (hr : r.Over G.sig)
    (derives : Derives (e.theory s) l r) (hb : s.Denotes lhs b)
    (down : G.Descent (s.theory [ab]) l b) :
    Evolves G s e s { e with
      metrics := e.metrics.recordRuleCollapsed
      equations := addFront e.equations ⟨lhs, rule.rhs⟩
      rules := remove e.rules rule } := by
  have hb' := (down.under hl).1
  have new : s.Means ⟨lhs, rule.rhs⟩ (b, r) := ⟨hb, means.2⟩
  have fewer : remove e.rules rule ⊆ e.rules := fun d hd => (mem_remove.1 hd).1
  have more : e.equations ⊆ addFront e.equations ⟨lhs, rule.rhs⟩ := fun d hd => mem_addFront.2 (.inr hd)
  have still : s.theory [ab] ⊆ s.theory (remove e.rules rule) := by
    refine Store.theory_mono fun d hd => ?_
    rw [List.mem_singleton.1 hd]
    exact mem_remove.2 ⟨hab, apart.symm⟩
  refine ⟨⟨fun d hd => ?_, fine.rules.of_subset fewer, fun x y hx => ?_, fine.distinct⟩, ?_, ?_, rfl, rfl⟩
  · rcases mem_addFront.1 hd with rfl | hd
    · exact ⟨b, r, new, hb', hr⟩
    · exact fine.equations d hd
  · exact fine.descends x y (Store.theory_mono fewer hx)
  · rintro x y (hx | hx)
    · obtain ⟨d, hd, same⟩ := hx
      rcases mem_addFront.1 hd with rfl | hd
      · obtain ⟨rfl, rfl⟩ := Store.eq_of_means new same
        have chain : Derives (e.theory s) l x :=
          (Conv.derives down).mono fun d hd => .inr (Store.theory_mono fewer (still hd))
        exact chain.symm.trans derives
      · exact .of_mem (.inl ⟨d, hd, same⟩)
    · exact .of_mem (.inr (Store.theory_mono fewer hx))
  · rintro x y (hx | hx)
    · obtain ⟨hx', hy'⟩ := fine.equations.fits x y hx
      exact .of_mem (.inl (Store.theory_mono more hx)) hx' hy'
    · obtain ⟨d, hd, means', hx', hy'⟩ := fine.rules.exists_means hx
      by_cases same : d = rule
      · subst same
        obtain rfl := means.1.unique means'.1
        obtain rfl := means.2.unique means'.2
        refine .of_descent hx' hy' (down.mono fun d hd => .inr (still hd)) (.refl r) ?_
        exact .of_mem (.inl (Store.mem_theory (mem_addFront.2 (.inl rfl)) new)) hb' hy'
      · exact .of_mem (.inr (Store.mem_theory (mem_remove.2 ⟨hd, same⟩) means')) hx' hy'

/-- A rule that is taken back is put before what comes of the others. -/
theorem Collapses.cons {looked : List Equation} {lhs : Ref} (h : Collapses G ab looked
      { e with
        metrics := e.metrics.recordRuleCollapsed
        equations := addFront e.equations ⟨lhs, rule.rhs⟩
        rules := remove e.rules rule } s' e') (drops : Drops G s' lhs rule.lhs) :
    Collapses G ab (rule :: looked) e s' e' := by
  have gone : rule ∉ e'.rules := fun stays => (mem_remove.1 (h.rules.subset stays)).2 rfl
  refine ⟨h.rules.trans List.filter_sublist, fun strict d hd stays => ?_, ?_⟩
  · rcases List.mem_cons.1 hd with rfl | hd
    · exact absurd stays gone
    · exact h.avoids strict d hd stays
  · obtain ⟨front, same, origin⟩ := h.equations
    have old : ∀ c ∈ front, ∃ d ∈ rule :: looked, d ∉ e'.rules ∧ c.rhs = d.rhs ∧ Drops G s' c.lhs d.lhs := by
      intro c hc
      obtain ⟨d, hd, rest⟩ := origin c hc
      exact ⟨d, List.mem_cons_of_mem _ hd, rest⟩
    dsimp only [addFront] at same
    split at same
    · exact ⟨front, same, old⟩
    · refine ⟨front ++ [⟨lhs, rule.rhs⟩], by simpa using same, fun c hc => ?_⟩
      rcases List.mem_append.1 hc with hc | hc
      · exact old c hc
      · obtain rfl := List.mem_singleton.1 hc
        exact ⟨rule, List.mem_cons_self, gone, rfl, drops⟩

theorem Aside.collapses {looked : List Equation} (aside : Aside e e') {s' : Store} {e'' : Engine}
    (h : Collapses G ab looked e' s' e'') : Collapses G ab looked e s' e'' :=
  ⟨aside.rules ▸ h.rules, h.avoids, aside.equations ▸ h.equations⟩

theorem collapseBy_spec {rules : List Equation} (obeys : ctx.order.Obeys G) (wf : s.WellFormed)
    (fine : Fine G s e) (hab : ab ∈ e.rules) (apart : ∀ rule ∈ rules, rule ≠ ab)
    (follows : ∀ rule ∈ rules, Superposition.Follows G s (e.theory s) rule) :
    Advancing G e s (collapseBy ctx ab rules) fun _ e' s' => Collapses G ab rules e s' e' := by
  induction rules generalizing e s with
  | nil => exact .pure wf fine ⟨.refl _, fun _ _ h => (by cases h), [], rfl, fun _ h => by cases h⟩
  | cons rule rules ih =>
      rw [collapseBy]
      obtain ⟨l, r, means, hl, hr, derives⟩ := follows rule List.mem_cons_self
      have single : Reducible G s [ab] [] :=
        fine.reducible.of_subset fun d hd => List.mem_singleton.1 hd ▸ hab
      refine Advancing.bind fine ((normalizeOne_spec obeys wf single means.1 hl).advancing wf fine) ?_
      rintro lhs e₁ s₁ wf₁ le₁ adv ⟨aside, b, hb, chain, settled⟩
      have means₁ := Equation.means_mono means wf wf₁ le₁
      have goOn : ∀ {e₂ : Engine}, Evolves G s₁ e₁ s₁ e₂ → ab ∈ e₂.rules →
          Advancing G e₂ s₁ (collapseBy ctx ab rules) fun _ e' s' => Collapses G ab rules e₂ s' e' := by
        intro e₂ ev hab₂
        refine ih wf₁ ev.fine hab₂ (fun d hd => apart d (List.mem_cons_of_mem _ hd)) fun d hd => ?_
        have before := follows d (List.mem_cons_of_mem _ hd)
        exact Follows.evolves (Follows.evolves before wf wf₁ le₁ adv.toEvolves) wf₁ wf₁ (le_refl s₁) ev
      have hab₁ : ab ∈ e₁.rules := aside.rules ▸ hab
      have down := chain.descent single.descends hl
      split
      · rename_i changed
        have drops : Drops G s₁ lhs rule.lhs := by
          have under := down.under hl
          refine ⟨l, b, means₁.1, hb, hl, under.1, under.2.resolve_left ?_⟩
          rintro rfl
          exact changed (hb.inj means₁.1 wf₁)
        rw [Store.theory_nil, Set.union_empty, ← single.hasRules.theory_eq wf wf₁ le₁] at down
        have ev := collapse_evolves adv.fine hab₁ (apart rule List.mem_cons_self) means₁ hl hr
          (derives.cut fun l r hl => (adv.covers l r hl).derives) hb down
        have advs := ev.advances wf₁ wf₁ (le_refl s₁) (fun d hd => (mem_remove.1 hd).1) rfl
        refine Advancing.bind adv.fine (.modify wf₁ advs) ?_
        rintro _ e₂ s₂ wf₂ le₂ adv₂ ⟨rfl, rfl⟩
        refine (goOn ev (mem_remove.2 ⟨hab₁, (apart rule List.mem_cons_self).symm⟩)).mono ?_
          fun _ _ _ _ h => h
        rintro _ e₃ s₃ wf₃ le₃ ⟨adv₃, collapses⟩
        exact ⟨adv₃, aside.collapses (collapses.cons (drops.mono wf₁ wf₃ le₃))⟩
      · rename_i unchanged
        have same : lhs = rule.lhs := not_not.1 unchanged
        refine (goOn ((Aside.refl e₁).toBeside.evolves adv.fine wf₁ wf₁ (le_refl s₁)) hab₁).mono ?_
          fun _ _ _ _ h => h
        rintro _ e₃ s₃ wf₃ le₃ ⟨adv₃, collapses⟩
        refine ⟨adv₃, aside.collapses ⟨collapses.rules, fun strict d hd stays => ?_, ?_⟩⟩
        · rcases List.mem_cons.1 hd with rfl | hd
          · obtain ⟨x, y, meansAb, -⟩ := fine.rules ab hab
            have avoids := (settled strict).avoids (Store.mem_theory (List.mem_singleton_self ab) meansAb)
            have here : s₁.Avoids d.lhs ab.lhs :=
              ⟨b, x, same ▸ hb, meansAb.1.mono wf wf₁ le₁, avoids⟩
            exact here.mono wf₁ wf₃ le₃
          · exact collapses.avoids strict d hd stays
        · obtain ⟨front, split, origin⟩ := collapses.equations
          refine ⟨front, split, fun c hc => ?_⟩
          obtain ⟨d, hd, rest⟩ := origin c hc
          exact ⟨d, List.mem_cons_of_mem _ hd, rest⟩

/-- A rule whose right side the other rules take down to another one, on which they are of no use. -/
structure Composable (G : Gauge) (s : Store) (before : List Equation) (old new : Equation)
    (after : List Equation) : Prop where
  lhs : new.lhs = old.lhs
  changed : new.rhs ≠ old.rhs
  down : ∃ l r r', s.Means old (l, r) ∧ s.Denotes new.rhs r' ∧
    G.Descent (s.theory (before ++ after)) r r'
  used : ∃ d ∈ before ++ after, ¬ s.Avoids old.rhs d.lhs
  settled : G.strict → ∀ d ∈ before ++ after, s.Avoids new.rhs d.lhs

theorem findComposable_spec {before rules : List Equation} (obeys : ctx.order.Obeys G)
    (wf : s.WellFormed) (has : s.HasAll G.sig (before ++ rules))
    (desc : G.Descends (s.theory (before ++ rules))) :
    Leaves e s (findComposable ctx before rules) fun out s' =>
      (∀ before' new after, out = some (before', new, after) →
        ∃ old, before ++ rules = before' ++ old :: after ∧ Composable G s' before' old new after) ∧
      (out = none → G.strict → ∀ rule ∈ rules, ∀ d ∈ before ++ rules, d ≠ rule →
        s'.Avoids rule.rhs d.lhs) := by
  induction rules generalizing before e s with
  | nil => exact .pure wf ⟨fun _ _ _ h => (by cases h), fun _ _ _ h => by cases h⟩
  | cons rule after ih =>
      rw [findComposable]
      obtain ⟨l, r, means, hl, hr⟩ := has rule (by simp)
      have others : Reducible G s (before ++ after) [] :=
        Reducible.of_subset ⟨has, fun _ h => (by cases h), desc⟩ subset_around
      refine (normalizeOne_spec obeys wf others means.2 hr).bind fun rhs e₁ s₁ wf₁ le₁ h => ?_
      obtain ⟨r', hr', chain, settled⟩ := h
      have means₁ := Equation.means_mono means wf wf₁ le₁
      have rests : G.strict → ∀ d ∈ before ++ after, s₁.Avoids rhs d.lhs := by
        intro strict d hd
        obtain ⟨x, y, meansD, -⟩ := others.hasRules d hd
        exact ⟨r', x, hr', meansD.1.mono wf wf₁ le₁, (settled strict).avoids (Store.mem_theory hd meansD)⟩
      split
      · rename_i changed
        refine .pure wf₁ ⟨fun before' new after' same => ?_, fun none => by cases none⟩
        cases same
        have down := chain.descent others.descends hr
        rw [Store.theory_nil, Set.union_empty, ← others.hasRules.theory_eq wf wf₁ le₁] at down
        refine ⟨rule, rfl, rfl, changed, ⟨l, r, r', means₁, hr', down⟩, ?_, rests⟩
        -- a rule was used at least once
        rcases chain.cases_head with rfl | ⟨t, first, -⟩
        · exact absurd (hr'.inj means₁.2 wf₁) changed
        · rw [Store.theory_nil] at first
          obtain ⟨x, y, mem, inside⟩ := first.exists_inside
          obtain ⟨d, hd, meansD, -⟩ := others.hasRules.exists_means mem
          refine ⟨d, hd, fun ⟨t', x', ht', hx', avoids⟩ => inside ?_⟩
          obtain rfl : t' = r := ht'.unique means₁.2
          obtain rfl : x' = x := hx'.unique (meansD.1.mono wf wf₁ le₁)
          exact avoids
      · rename_i unchanged
        have here : G.strict → ∀ d ∈ before ++ after, s₁.Avoids rule.rhs d.lhs :=
          not_not.1 unchanged ▸ rests
        have shift : before ++ rule :: after = (before ++ [rule]) ++ after := by simp
        rw [shift] at has desc ⊢
        have desc₁ : G.Descends (s₁.theory ((before ++ [rule]) ++ after)) := by
          rwa [has.theory_eq wf wf₁ le₁]
        refine (ih wf₁ (has.mono wf wf₁ le₁) desc₁).mono fun out s₂ wf₂ le₂ h => ⟨h.1, ?_⟩
        intro isNone strict d hd c hc apart
        rcases List.mem_cons.1 hd with rfl | hd
        · exact (here strict c (mem_around (shift ▸ hc) apart)).mono wf₁ wf₂ le₂
        · exact h.2 isNone strict d hd c hc apart

theorem Connected.descendOuter {T : Theory} {old new other : Equation} {r' : Term}
    (h : Connected G s T (old, other)) (means : s.Means old (l, r)) (hr : r.Over G.sig)
    (rule : G.gt l r) (new' : s.Means new (l, r')) (down : G.Descent T r r') :
    Connected G s T (new, other) := by
  obtain ⟨gd, ab, hgd, hab, hg, connects⟩ := h
  obtain rfl : gd.1 = l := hgd.1.unique means.1
  obtain rfl : gd.2 = r := hgd.2.unique means.2
  exact ⟨_, ab, new', hab, hg, connects.descendOuter hg hr rule down⟩

theorem Connected.descendInner {T : Theory} {old new other : Equation} {r' : Term}
    (h : Connected G s T (other, old)) (means : s.Means old (l, r)) (hl : l.Over G.sig)
    (hr : r.Over G.sig) (rule : G.gt l r) (new' : s.Means new (l, r')) (down : G.Descent T r r') :
    Connected G s T (other, new) := by
  obtain ⟨gd, ab, hgd, hab, hg, connects⟩ := h
  obtain rfl : ab.1 = l := hab.1.unique means.1
  obtain rfl : ab.2 = r := hab.2.unique means.2
  exact ⟨gd, _, hgd, new', hg, connects.descendInner hg hl hr rule down⟩

theorem mem_composed {before after : List Equation} {new d : Equation} :
    d ∈ (if new ∈ before ++ after then before ++ after else before ++ new :: after) ↔
      d ∈ before ++ after ∨ d = new := by
  split
  · rename_i old
    exact ⟨.inl, fun h => h.elim id fun same => same ▸ old⟩
  · simp only [List.mem_append, List.mem_cons]
    tauto

/-- What the old rule and the new one mean. -/
theorem Composable.exists_sides {before after : List Equation} {old new : Equation}
    (h : Composable G s before old new after) (fine : Fine G s e) (split : e.rules = before ++ old :: after) :
    ∃ l r r', s.Means old (l, r) ∧ s.Means new (l, r') ∧ l.Over G.sig ∧ r.Over G.sig ∧ G.gt l r ∧
      G.Descent (s.theory (before ++ after)) r r' := by
  obtain ⟨lhs, -, ⟨l, r, r', means, denotes, down⟩, -⟩ := h
  obtain ⟨hl, hr, rule⟩ := fine.descends l r (Store.mem_theory (by simp [split]) means)
  exact ⟨l, r, r', means, ⟨lhs ▸ means.1, denotes⟩, hl, hr, rule, down⟩

theorem compose_evolves {before after rules : List Equation} {old new : Equation}
    (fine : Fine G s e) (split : e.rules = before ++ old :: after)
    (composable : Composable G s before old new after)
    (mem : ∀ d, d ∈ rules ↔ d ∈ before ++ after ∨ d = new) :
    Evolves G s e s { e with metrics := e.metrics.recordRuleComposed, rules } := by
  obtain ⟨l, r, r', means, means', hl, hr, rule, down⟩ := composable.exists_sides fine split
  have there : old ∈ e.rules := by simp [split]
  have others : before ++ after ⊆ e.rules := split ▸ subset_around
  have hr' := (down.under hr).1
  have down' : G.Descent (s.theory e.equations ∪ s.theory rules) r r' :=
    down.mono fun d hd => .inr (Store.theory_mono (fun d hd => (mem d).2 (.inl hd)) hd)
  refine ⟨⟨fine.equations, fun d hd => ?_, fun x y hx => ?_, fine.distinct⟩, ?_, ?_, rfl, rfl⟩
  · rcases (mem d).1 hd with hd | rfl
    · exact fine.rules d (others hd)
    · exact ⟨l, r', means', hl, hr'⟩
  · obtain ⟨d, hd, same⟩ := hx
    rcases (mem d).1 hd with hd | rfl
    · exact fine.descends x y ⟨d, others hd, same⟩
    · obtain ⟨rfl, rfl⟩ := Store.eq_of_means means' same
      exact ⟨hl, hr', G.gt_of_gt_of_le hl hr hr' rule (down.under hr).2⟩
  · rintro x y (hx | ⟨d, hd, same⟩)
    · exact .of_mem (.inl hx)
    · rcases (mem d).1 hd with hd | rfl
      · exact .of_mem (.inr ⟨d, others hd, same⟩)
      · obtain ⟨rfl, rfl⟩ := Store.eq_of_means means' same
        have first : Derives (e.theory s) x r := .of_mem (.inr (Store.mem_theory there means))
        exact first.trans ((Conv.derives down).mono fun d hd => .inr (Store.theory_mono others hd))
  · rintro x y (hx | hx)
    · obtain ⟨hx', hy'⟩ := fine.equations.fits x y hx
      exact .of_mem (.inl hx) hx' hy'
    · obtain ⟨d, hd, meansD, hx', hy'⟩ := fine.rules.exists_means hx
      by_cases same : d = old
      · subst same
        obtain rfl := means.1.unique meansD.1
        obtain rfl := means.2.unique meansD.2
        refine .of_descent hl hr (.refl l) down' ?_
        exact .of_mem (.inr (Store.mem_theory ((mem new).2 (.inr rfl)) means')) hl hr'
      · have kept : d ∈ rules := (mem d).2 (.inl (mem_around (split ▸ hd) same))
        exact .of_mem (.inr (Store.mem_theory kept meansD)) hx' hy'

theorem compose_advances {before after rules : List Equation} {old new : Equation}
    (fine : Fine G s e) (split : e.rules = before ++ old :: after)
    (composable : Composable G s before old new after)
    (mem : ∀ d, d ∈ rules ↔ d ∈ before ++ after ∨ d = new) :
    Advances G s e s { e with metrics := e.metrics.recordRuleComposed, rules } := by
  have ev := compose_evolves fine split composable mem
  obtain ⟨l, r, r', means, means', hl, hr, rule, down⟩ := composable.exists_sides fine split
  have there : old ∈ e.rules := by simp [split]
  have others : before ++ after ⊆ e.rules := split ▸ subset_around
  have down' : G.Descent (s.theory e.equations ∪ s.theory rules) r r' :=
    down.mono fun d hd => .inr (Store.theory_mono (fun d hd => (mem d).2 (.inl hd)) hd)
  refine ⟨ev, fun peaks sharp d hd => ?_⟩
  have before' : ∀ d : Equation × Equation,
      d.1 ∈ e.rules ∧ d.2 ∈ e.rules ∨ e.seen.contains d = true →
      Connected G s (s.theory e.equations ∪ s.theory rules) d :=
    fun d hd => (peaks sharp d hd).cover ev.covers
  rcases hd with ⟨hx, hy⟩ | seen
  · obtain ⟨x, y⟩ := d
    -- an overlap of the new rule comes from one of the old rule
    have outer : ∀ z ∈ e.rules, Connected G s (s.theory e.equations ∪ s.theory rules) (x, z) := by
      intro z hz
      rcases (mem x).1 hx with hx | rfl
      · exact before' (x, z) (.inl ⟨others hx, hz⟩)
      · exact Connected.descendOuter (before' (old, z) (.inl ⟨there, hz⟩)) means hr rule means' down'
    rcases (mem y).1 hy with hy | rfl
    · exact outer y (others hy)
    · exact Connected.descendInner (outer old there) means hl hr rule means' down'
  · exact before' d (.inr seen)

/-- One rule is reduced or, if it becomes equal to another one, dropped. -/
theorem Composable.lowers {before after : List Equation} {old new : Equation}
    (h : Composable G s before old new after) (has : s.HasAll G.sig (before ++ old :: after)) :
    List.SublistForall₂ (LowersRight G s)
      (if new ∈ before ++ after then before ++ after else before ++ new :: after)
      (before ++ old :: after) := by
  obtain ⟨lhs, -, ⟨l, r, r', means, denotes, down⟩, -⟩ := h
  have same : ∀ d ∈ before ++ old :: after, LowersRight G s d d := by
    intro d hd
    obtain ⟨x, y, meansD, -, hy⟩ := has d hd
    exact ⟨rfl, .refl meansD.2 hy⟩
  have lowered : LowersRight G s new old := by
    obtain ⟨x, y, meansD, -, hy⟩ := has old (by simp)
    obtain rfl := means.2.unique meansD.2
    exact ⟨lhs, r, r', means.2, denotes, hy, down.under hy⟩
  refine List.sublistForall₂_iff.2 ?_
  split
  · refine ⟨before ++ after, List.forall₂_same.2 fun d hd => same d (subset_around hd), ?_⟩
    exact (List.sublist_cons_self old after).append_left before
  · refine ⟨before ++ old :: after, List.rel_append ?_ (.cons lowered ?_), .refl _⟩
    · exact List.forall₂_same.2 fun d hd => same d (by simp [hd])
    · exact List.forall₂_same.2 fun d hd => same d (by simp [hd])

theorem compose_spec {n : Nat} (obeys : ctx.order.Obeys G) (wf : s.WellFormed) (fine : Fine G s e) :
    Advancing G e s (compose ctx n) fun _ e' s' => Composes G e s' e' := by
  induction n generalizing e s with
  | zero => exact .throw wf ((Beside.refl e).evolves fine wf wf (le_refl s))
  | succ n ih =>
      rw [compose]
      refine .bindGet ?_
      have rules : s.HasAll G.sig ([] ++ e.rules) := fine.rules
      refine Advancing.bind fine ((findComposable_spec obeys wf rules fine.descends).advancing wf fine) ?_
      rintro out e₁ s₁ wf₁ le₁ adv ⟨aside, found, done⟩
      split
      · refine .pure wf₁ adv.fine ⟨aside.equations, ?_, ?_⟩
        · rw [aside.rules]
          refine sublistForall₂_self fun d hd => ?_
          obtain ⟨x, y, means, -, hy⟩ := fine.rules.mono wf wf₁ le₁ d hd
          exact ⟨rfl, .refl means.2 hy⟩
        · rw [aside.rules]
          exact done rfl
      · rename_i before new after
        obtain ⟨old, split, composable⟩ := found before new after rfl
        have split₁ : e₁.rules = before ++ old :: after := aside.rules.trans split
        have lowers := composable.lowers (split₁ ▸ adv.fine.rules)
        refine Advancing.bind adv.fine (.modify wf₁ (compose_advances adv.fine split₁ composable
          fun d => mem_composed)) ?_
        rintro _ e₂ s₂ wf₂ - adv₂ ⟨rfl, rfl⟩
        refine (ih wf₂ adv₂.fine).mono ?_ fun _ _ _ _ h => h
        rintro _ e₃ s₃ wf₃ le₃ ⟨adv₃, equations, rules, avoids⟩
        refine ⟨adv₃, equations.trans aside.equations, ?_, avoids⟩
        rw [← aside.rules, split₁]
        exact sublistForall₂_trans rules
          (sublistForall₂_imp lowers fun _ _ h => h.mono wf₂ wf₃ le₃)

/-- Both sides of an equation have descended. -/
def Simplified (G : Gauge) (s : Store) (T : Theory) (d d' : Equation) : Prop :=
  ∃ l r l' r', s.Means d (l, r) ∧ s.Means d' (l', r') ∧ G.Descent T l l' ∧ G.Descent T r r'

theorem pairUp_spec {T : Theory} {es found : List Equation} {outs : List Ref}
    (h : List.Forall₂ (fun side out => ∃ a b, s.Denotes side a ∧ s.Denotes out b ∧ G.Descent T a b)
      (es.flatMap fun d => [d.lhs, d.rhs]) outs) :
    (∀ d' ∈ pairUp found outs, d' ∈ found ∨ ∃ d ∈ es, Simplified G s T d d') ∧
    found ⊆ pairUp found outs ∧
    ∀ d ∈ es, ∃ d', Simplified G s T d d' ∧ (d'.lhs = d'.rhs ∨ d' ∈ pairUp found outs) := by
  induction es generalizing outs found with
  | nil =>
      cases h
      exact ⟨fun d hd => .inl hd, fun _ h => h, fun d hd => by cases hd⟩
  | cons d es ih =>
      rw [List.flatMap_cons] at h
      cases h with
      | @cons _ lhs _ _ left h =>
          cases h with
          | @cons _ rhs _ outs right h =>
              obtain ⟨l, l', hl, hl', down⟩ := left
              obtain ⟨r, r', hr, hr', down'⟩ := right
              have simplified : Simplified G s T d ⟨lhs, rhs⟩ :=
                ⟨l, r, l', r', ⟨hl, hr⟩, ⟨hl', hr'⟩, down, down'⟩
              rw [pairUp]
              obtain ⟨origin, sub, all⟩ := ih h
              have new : ∀ d', d' ∈ (if lhs = rhs then found else addNew found ⟨lhs, rhs⟩) →
                  d' ∈ found ∨ d' = ⟨lhs, rhs⟩ := by
                intro d' hd'
                split at hd'
                · exact .inl hd'
                · exact Superposition.mem_addNew.1 hd'
              refine ⟨fun d' hd' => ?_, fun d' hd' => sub ?_, fun d₀ hd₀ => ?_⟩
              · rcases origin d' hd' with hd' | ⟨d₀, hd₀, simp₀⟩
                · rcases new d' hd' with hd' | rfl
                  · exact .inl hd'
                  · exact .inr ⟨d, List.mem_cons_self, simplified⟩
                · exact .inr ⟨d₀, List.mem_cons_of_mem _ hd₀, simp₀⟩
              · split
                · exact hd'
                · exact Superposition.mem_addNew.2 (.inl hd')
              · rcases List.mem_cons.1 hd₀ with rfl | hd₀
                · refine ⟨⟨lhs, rhs⟩, simplified, ?_⟩
                  by_cases same : lhs = rhs
                  · exact .inl same
                  · refine .inr (sub ?_)
                    rw [if_neg same]
                    exact Superposition.mem_addNew.2 (.inr rfl)
                · exact all d₀ hd₀

/-- What is paired up comes from the outcomes, and has two different sides. -/
theorem pairUp_sides {found : List Equation} {outs : List Ref} {d : Equation} (h : d ∈ pairUp found outs) :
    d ∈ found ∨ d.lhs ∈ outs ∧ d.rhs ∈ outs ∧ d.isTrivial = false := by
  induction found, outs using pairUp.induct with
  | case1 found lhs rhs rest ih =>
      rw [pairUp] at h
      rcases ih h with old | ⟨hl, hr, proper⟩
      · split at old
        · exact .inl old
        · rename_i differ
          rcases Superposition.mem_addNew.1 old with old | rfl
          · exact .inl old
          · exact .inr ⟨by simp, by simp, decide_eq_false differ⟩
      · exact .inr ⟨by simp [hl], by simp [hr], proper⟩
  | case2 found outs other =>
      rw [pairUp] at h
      · exact .inl h
      · exact other

/-- Equations are paired up in their order, and some are dropped. -/
theorem pairUp_lowers (found : List Equation) {es : List Equation} {outs : List Ref}
    (h : List.Forall₂ (fun side out => Lowers G s out side) (es.flatMap fun d => [d.lhs, d.rhs]) outs) :
    ∃ new, pairUp found outs = found ++ new ∧ List.SublistForall₂ (LowersSides G s) new es := by
  induction es generalizing outs found with
  | nil =>
      cases h
      exact ⟨[], by simp [pairUp], .nil⟩
  | cons d es ih =>
      rw [List.flatMap_cons] at h
      cases h with
      | @cons _ lhs _ _ left h =>
          cases h with
          | @cons _ rhs _ outs right h =>
              rw [pairUp]
              split
              · obtain ⟨new, same, lowers⟩ := ih found h
                exact ⟨new, same, .cons_right lowers⟩
              · rw [addNew]
                split
                · obtain ⟨new, same, lowers⟩ := ih found h
                  exact ⟨new, same, .cons_right lowers⟩
                · obtain ⟨new, same, lowers⟩ := ih (found ++ [⟨lhs, rhs⟩]) h
                  exact ⟨⟨lhs, rhs⟩ :: new, by simpa using same, .cons ⟨left, right⟩ lowers⟩

/-- The sides of a worklist. -/
abbrev bothSides (e : Engine) : List Ref := e.equations.flatMap fun d => [d.lhs, d.rhs]

theorem Fine.bothSides (fine : Fine G s e) :
    ∀ side ∈ e.bothSides, side < s.size ∧ (s.term side).Over G.sig := by
  intro side hside
  obtain ⟨d, hd, here⟩ := List.mem_flatMap.1 hside
  obtain ⟨l, r, means, hl, hr⟩ := fine.equations d hd
  simp only [List.mem_cons, List.not_mem_nil, or_false] at here
  rcases here with rfl | rfl
  · exact ⟨means.1.1, means.1.2 ▸ hl⟩
  · exact ⟨means.2.1, means.2.2 ▸ hr⟩

/-- The normal forms of the sides of a worklist, paired up, simplify it. -/
theorem pairUp_simplifies {e₁ : Engine} {outs : List Ref} (fine : Fine G s e) (aside : Aside e e₁)
    (wf : s.WellFormed) (wf' : s'.WellFormed) (le : s ≤ s')
    (h : List.Forall₂ (fun side => Reducer.Normalizes G (s.theory e.rules) (s.theory []) s' (s.term side))
      e.bothSides outs) : Simplifies G e s' { e₁ with equations := pairUp [] outs } := by
  have lowers : List.Forall₂ (fun side out => Lowers G s' out side) e.bothSides outs := by
    refine ((List.forall₂_and_left _ _).2 ⟨fine.bothSides, h⟩).imp ?_
    rintro side out ⟨⟨small, inSig⟩, b, hb, chain, -⟩
    exact ⟨_, b, (Store.denotes_term small).mono wf wf' le, hb, inSig,
      (chain.descent fine.descends inSig).under inSig⟩
  have settled : G.strict → ∀ out ∈ outs, ∀ d ∈ e.rules, s'.Avoids out d.lhs := by
    intro strict out hout d hd
    obtain ⟨side, -, b, hb, -, settled⟩ := Store.exists_of_forall₂_right h hout
    obtain ⟨x, y, means, -⟩ := fine.rules d hd
    exact ⟨b, x, hb, means.1.mono wf wf' le, (settled strict).avoids (Store.mem_theory hd means)⟩
  refine ⟨aside.rules, ?_, fun strict c hc d hd => ?_, fun c hc => ?_⟩
  · obtain ⟨new, same, lowered⟩ := pairUp_lowers [] lowers
    change List.SublistForall₂ _ (pairUp [] outs) _
    rwa [same]
  · rcases pairUp_sides hc with none | ⟨hl, hr, -⟩
    · cases none
    · have rule : d ∈ e.rules := aside.rules ▸ hd
      exact ⟨settled strict _ hl d rule, settled strict _ hr d rule⟩
  · rcases pairUp_sides hc with none | ⟨-, -, proper⟩
    · cases none
    · exact proper

/-- The equations may be replaced by ones to which the rules take them down, all but trivial ones. -/
theorem simplified_advances {es : List Equation} (wf : s.WellFormed) (fine : Fine G s e)
    (origin : ∀ d' ∈ es, ∃ d ∈ e.equations, Simplified G s (s.theory e.rules) d d')
    (kept : ∀ d ∈ e.equations, ∃ d', Simplified G s (s.theory e.rules) d d' ∧ (d'.lhs = d'.rhs ∨ d' ∈ es)) :
    Advances G s e s { e with equations := es } := by
  have simplified : ∀ {d d'}, d ∈ e.equations → Simplified G s (s.theory e.rules) d d' →
      ∃ l r l' r', s.Means d (l, r) ∧ s.Means d' (l', r') ∧ l.Over G.sig ∧ r.Over G.sig ∧
        G.Descent (s.theory e.rules) l l' ∧ G.Descent (s.theory e.rules) r r' := by
    rintro d d' hd ⟨l, r, l', r', means, means', down, down'⟩
    obtain ⟨l₀, r₀, means₀, hl, hr⟩ := fine.equations d hd
    obtain rfl := means₀.1.unique means.1
    obtain rfl := means₀.2.unique means.2
    exact ⟨l₀, r₀, l', r', means, means', hl, hr, down, down'⟩
  have byRules : s.theory e.rules ⊆ e.theory s := fun d hd => .inr hd
  refine worklist_advances wf fine (.refl _) rfl ?_ ?_ ?_
  · intro d' hd'
    obtain ⟨d, hd, simp₀⟩ := origin d' hd'
    obtain ⟨l, r, l', r', -, means', hl, hr, down, down'⟩ := simplified hd simp₀
    exact ⟨l', r', means', (down.under hl).1, (down'.under hr).1⟩
  · rintro x y ⟨d', hd', same⟩
    obtain ⟨d, hd, simp₀⟩ := origin d' hd'
    obtain ⟨l, r, l', r', means, means', hl, hr, down, down'⟩ := simplified hd simp₀
    obtain ⟨rfl, rfl⟩ := Store.eq_of_means means' same
    have here : Derives (e.theory s) l r := .of_mem (.inl (Store.mem_theory hd means))
    exact ((Conv.derives down).mono byRules).symm.trans (here.trans ((Conv.derives down').mono byRules))
  · intro x y hx
    obtain ⟨d, hd, means₀, hx', hy'⟩ := fine.equations.exists_means hx
    obtain ⟨d', simp₀, or⟩ := kept d hd
    obtain ⟨l, r, l', r', means, means', hl, hr, down, down'⟩ := simplified hd simp₀
    obtain rfl := means₀.1.unique means.1
    obtain rfl := means₀.2.unique means.2
    refine .of_descent hx' hy' (down.mono fun d hd => .inr hd) (down'.mono fun d hd => .inr hd) ?_
    rcases or with same | mem
    · obtain rfl : l' = r' := means'.1.unique (same ▸ means'.2)
      exact .refl l'
    · exact .of_mem (.inl (Store.mem_theory mem means')) (down.under hl).1 (down'.under hr).1

theorem simplify_spec (obeys : ctx.order.Obeys G) (wf : s.WellFormed) (fine : Fine G s e) :
    Advancing G e s (simplify ctx) fun _ e' s' => Simplifies G e s' e' := by
  rw [simplify]
  refine .bindGet ?_
  have known := fine.bothSides
  have denotes : s.DenotesAll e.bothSides (e.bothSides.map s.term) :=
    List.forall₂_map_right_iff.2 (List.forall₂_same.2 fun side h => Store.denotes_term (known side h).1)
  have inSig : ∀ a ∈ e.bothSides.map s.term, a.Over G.sig := by
    intro a ha
    obtain ⟨side, hside, rfl⟩ := List.mem_map.1 ha
    exact (known side hside).2
  refine Advancing.bind fine ((normalizeWith_spec obeys wf fine.reducible denotes inSig).advancing wf fine) ?_
  rintro outs e₁ s₁ wf₁ le₁ adv ⟨aside, houts⟩
  rw [List.forall₂_map_left_iff] at houts
  have rules : s₁.theory e₁.rules = s.theory e.rules := by
    rw [aside.rules, fine.rules.theory_eq wf wf₁ le₁]
  have pairs : List.Forall₂ (fun side out => ∃ a b, s₁.Denotes side a ∧ s₁.Denotes out b ∧
      G.Descent (s₁.theory e₁.rules) a b) e.bothSides outs := by
    refine ((List.forall₂_and_left _ _).2 ⟨known, houts⟩).imp ?_
    rintro side out ⟨⟨small, inSig⟩, b, hb, chain, -⟩
    have down := chain.descent fine.descends inSig
    rw [Store.theory_nil, Set.union_empty] at down
    exact ⟨s.term side, b, (Store.denotes_term small).mono wf wf₁ le₁, hb, rules ▸ down⟩
  obtain ⟨origin, -, all⟩ := pairUp_spec pairs
  rw [← aside.equations] at origin all
  have advances := simplified_advances wf₁ adv.fine
    (fun d' hd' => (origin d' hd').resolve_left List.not_mem_nil) all
  refine (Advancing.modify wf₁ advances).mono (fun _ _ _ _ _ h => ?_) fun _ _ _ _ h => h
  obtain ⟨adv', rfl, rfl⟩ := h
  exact ⟨adv', pairUp_simplifies fine aside wf wf₁ le₁ houts⟩

theorem partitionOrientable_spec {es : List Equation} (obeys : ctx.order.Obeys G) (wf : s.WellFormed)
    (has : s.HasAll G.sig es) :
    Leaves e s (partitionOrientable ctx es) fun out _ => (out.1 ++ out.2).Perm es := by
  induction es generalizing e s with
  | nil => exact .pure wf (.refl _)
  | cons d es ih =>
      rw [partitionOrientable]
      refine (orientable_spec obeys wf (has d List.mem_cons_self)).bind fun yes e₁ s₁ wf₁ le₁ _ => ?_
      have rest := has.of_subset (List.subset_cons_self d es)
      refine (ih wf₁ (rest.mono wf wf₁ le₁)).bind ?_
      rintro ⟨oriented, others⟩ e₂ s₂ wf₂ _ h
      refine .pure wf₂ ?_
      cases yes with
      | true => exact h.cons d
      | false => exact List.perm_middle.trans (h.cons d)

theorem sortWorklist_spec (obeys : ctx.order.Obeys G) (wf : s.WellFormed) (fine : Fine G s e) :
    Advancing G e s (sortWorklist ctx) fun _ e' _ => e'.rules = e.rules ∧
      e'.equations.Perm e.equations := by
  rw [sortWorklist]
  refine .bindGet ?_
  split
  · refine Advancing.bind fine ((partitionOrientable_spec obeys wf fine.equations).advancing wf fine) ?_
    rintro ⟨oriented, others⟩ e₁ s₁ wf₁ le₁ adv ⟨aside, parts⟩
    refine .bindStore ?_
    let sorted := Text.sortByText (e.renderPair ctx.symbols s₁ "=")
    have perm : (sorted oriented ++ sorted others).Perm e.equations :=
      ((Text.sortByText_perm _ _).append (Text.sortByText_perm _ _)).trans parts
    refine (Advancing.modify wf₁ (reorder_advances wf₁ adv.fine (.refl _) rfl fun d => ?_)).mono
      (fun _ e₂ s₂ _ _ h => ?_) fun _ _ _ _ h => h
    · rw [aside.equations]
      exact perm.mem_iff
    · obtain ⟨adv₂, rfl, rfl⟩ := h
      exact ⟨adv₂, aside.rules, perm⟩
  · refine .bindStore ?_
    have perm := Text.sortByText_perm (e.renderPair ctx.symbols s "=") e.equations
    refine (Advancing.modify wf (reorder_advances wf fine (.refl _) rfl fun d => perm.mem_iff)).mono
      (fun _ e₂ s₂ _ _ h => ?_) fun _ _ _ _ h => h
    obtain ⟨adv₂, rfl, rfl⟩ := h
    exact ⟨adv₂, rfl, perm⟩

theorem cons_filter_subset {kept rest : List Equation} {d : Equation} :
    d :: (kept ++ d :: rest).filter (· ≠ d) ⊆ kept ++ d :: rest :=
  List.cons_subset.2 ⟨by simp, List.filter_sublist.subset⟩

theorem anySubsumes_spec {others : List Equation} {d : Equation} (wf : s.WellFormed)
    (has : s.HasAll G.sig (d :: others)) :
    s.Ensures (others.anyM (·.subsumesEither d)) fun yes s' => Store.SameTerms s s' ∧
      (yes = true ↔ ∃ c ∈ others, Equation.Subsumes s c d) := by
  obtain ⟨x, y, means, -⟩ := has d List.mem_cons_self
  refine Store.Ensures.anyM wf (.refl s) fun c hc s₁ wf₁ le₁ same₁ => ?_
  obtain ⟨l, r, means', -⟩ := has c (List.mem_cons_of_mem _ hc)
  refine (Equation.subsumesEither_iff wf₁ (Equation.means_mono means' wf wf₁ le₁)
    (Equation.means_mono means wf wf₁ le₁)).mono fun yes s₂ _ _ h => ⟨same₁.trans h.1, ?_⟩
  rw [h.2, Equation.subsumes_same same₁]

/-- An equation that another one subsumes in either direction need not be kept. -/
theorem removeSubsumed_spec {kept rest : List Equation} (wf : s.WellFormed)
    (has : s.HasAll G.sig (kept ++ rest)) :
    s.Ensures (removeSubsumed kept rest) fun out s' => Store.SameTerms s s' ∧ out.Sublist (kept ++ rest) ∧
      G.Covers (s.theory (kept ++ rest)) (s.theory out) := by
  induction rest generalizing kept s with
  | nil =>
      rw [List.append_nil] at has ⊢
      exact .pure wf ⟨.refl s, .refl _, .refl has.fits⟩
  | cons d rest ih =>
      rw [removeSubsumed]
      obtain ⟨x, y, means, hx, hy⟩ := has d (by simp)
      refine (anySubsumes_spec (G := G) wf (has.of_subset cons_filter_subset)).bind
        fun yes s₁ wf₁ le₁ hyes => ?_
      split
      · rename_i subsumed
        obtain ⟨c, hc, l, r, θ, means', inst⟩ := hyes.2.1 subsumed
        have has₁ := (has.of_subset subset_around).mono wf wf₁ le₁
        refine (ih wf₁ has₁).mono fun out s₂ _ _ h =>
          ⟨hyes.1.trans h.1, h.2.1.trans ((List.sublist_cons_self d rest).append_left kept), ?_⟩
        rw [hyes.1.theory, hyes.1.theory] at h
        refine Gauge.Covers.trans ?_ h.2.2 has.fits
        intro p q hp
        obtain ⟨c', hc', means'', hp', hq'⟩ := has.exists_means hp
        by_cases isD : c' = d
        · subst isD
          obtain rfl := means.1.unique means''.1
          obtain rfl := means.2.unique means''.2
          -- what subsumes the equation is another one and stays for now
          obtain ⟨hc, other⟩ := List.mem_filter.1 hc
          have stays : c ∈ kept ++ rest := mem_around hc (of_decide_eq_true other)
          obtain ⟨l₀, r₀, means₀, hl, hr⟩ := has c hc
          obtain rfl := means₀.1.unique means'.1
          obtain rfl := means₀.2.unique means'.2
          have bridge : G.Bridges (s.theory (kept ++ rest)) l₀ r₀ :=
            .of_mem (Store.mem_theory stays means') hl hr
          rcases inst with inst | inst
          · obtain rfl := means.1.unique inst.1
            obtain rfl := means.2.unique inst.2
            exact bridge.of_instance hx hy
          · obtain rfl := means.1.unique inst.1
            obtain rfl := means.2.unique inst.2
            exact (bridge.of_instance hy hx).symm
        · exact .of_mem (Store.mem_theory (mem_around hc' isD) means'') hp' hq'
      · have shift : kept ++ d :: rest = (kept ++ [d]) ++ rest := by simp
        rw [shift] at has ⊢
        refine (ih wf₁ (has.mono wf wf₁ le₁)).mono fun out s₂ _ _ h => ⟨hyes.1.trans h.1, h.2.1, ?_⟩
        rw [hyes.1.theory, hyes.1.theory] at h
        exact h.2.2

/-- No equation that is kept is an instance of another one, in either direction. What has been looked at is
an instance of no equation that may be kept. -/
theorem removeSubsumed_apart {kept rest : List Equation} (wf : s.WellFormed)
    (has : s.HasAll G.sig (kept ++ rest))
    (looked : ∀ c ∈ kept ++ rest, ∀ d ∈ kept, c ≠ d → ¬ Equation.Subsumes s c d) :
    s.Ensures (removeSubsumed kept rest) fun out _ =>
      ∀ c ∈ out, ∀ d ∈ out, c ≠ d → ¬ Equation.Subsumes s c d := by
  induction rest generalizing kept s with
  | nil =>
      rw [List.append_nil] at looked
      exact .pure wf looked
  | cons d rest ih =>
      rw [removeSubsumed]
      refine (anySubsumes_spec (G := G) wf (has.of_subset cons_filter_subset)).bind
        fun yes s₁ wf₁ le₁ ⟨same, answer⟩ => ?_
      have goOn : ∀ {kept' : List Equation}, kept' ++ rest ⊆ kept ++ d :: rest →
          (∀ c ∈ kept' ++ rest, ∀ b ∈ kept', c ≠ b → ¬ Equation.Subsumes s c b) →
          s₁.Ensures (removeSubsumed kept' rest) fun out _ =>
            ∀ c ∈ out, ∀ b ∈ out, c ≠ b → ¬ Equation.Subsumes s c b := by
        intro kept' sub looked'
        simp only [← Equation.subsumes_same same] at looked' ⊢
        exact ih wf₁ ((has.of_subset sub).mono wf wf₁ le₁) looked'
      split
      · exact goOn subset_around fun c hc => looked c (subset_around hc)
      · rename_i free
        refine goOn (by simp) fun c hc b hb apart => ?_
        rw [List.append_assoc, List.singleton_append] at hc
        rcases List.mem_append.1 hb with hb | hb
        · exact looked c hc b hb apart
        · obtain rfl := List.mem_singleton.1 hb
          exact fun subsumes => free (answer.2 ⟨c, List.mem_filter.2 ⟨hc, decide_eq_true apart⟩, subsumes⟩)

theorem tidy_spec (wf : s.WellFormed) (fine : Fine G s e) :
    Advancing G e s (do
      let equations ← removeSubsumed [] (← get).equations
      modify fun e => { e with equations }) fun _ e' s' => e'.rules = e.rules ∧
        e'.equations.Sublist e.equations ∧
        ∀ c ∈ e'.equations, ∀ d ∈ e'.equations, c ≠ d → ¬ Equation.Subsumes s' c d := by
  refine .bindGet (.bindLift (Store.Ensures.and (removeSubsumed_spec (G := G) wf fine.equations)
    (removeSubsumed_apart (G := G) wf fine.equations nofun)) ?_)
  rintro out s₁ wf₁ le₁ ⟨⟨same, fewer, covers⟩, apart⟩
  rw [List.nil_append] at fewer covers
  simp only [← Equation.subsumes_same same] at apart
  have adv := (Aside.refl e).advances fine wf wf₁ le₁
  have tidied : Advances G s₁ e s₁ { e with equations := out } := by
    refine worklist_advances wf₁ adv.fine (.refl _) rfl (adv.fine.equations.of_subset fewer.subset) ?_ ?_
    · exact fun x y hx => .of_mem (.inl (Store.theory_mono fewer.subset hx))
    · rw [same.theory, same.theory, same.theory]
      exact fun x y hx => (covers x y hx).mono fun d hd => .inl hd
  exact .modify wf₁ ⟨adv.trans tidied fine, rfl, fewer, apart⟩

/-- What is composed, simplified, put in another order and tidied is reduced by each other. -/
theorem Composes.interreduces {e₁ e₂ : Engine} {s₁ s₂ : Store} (composes : Composes G e s₁ e₁)
    (simplifies : Simplifies G e₁ s₂ e₂) (wf₁ : s₁.WellFormed) (wf₂ : s₂.WellFormed) (wf' : s'.WellFormed)
    (le₁ : s₁ ≤ s') (le₂ : s₂ ≤ s') (rules : e'.rules = e₂.rules)
    (equations : e'.equations.Subperm e₂.equations)
    (apart : ∀ c ∈ e'.equations, ∀ d ∈ e'.equations, c ≠ d → ¬ Equation.Subsumes s' c d) :
    Interreduces G e s' e' := by
  have same : e'.rules = e₁.rules := rules.trans simplifies.rules
  refine ⟨?_, ⟨e₂.equations, ?_, equations⟩, ?_, ?_, ?_, apart⟩
  · rw [same]
    exact sublistForall₂_imp composes.rules fun _ _ h => h.mono wf₁ wf' le₁
  · rw [← composes.equations]
    exact sublistForall₂_imp simplifies.equations fun _ _ h => h.mono wf₂ wf' le₂
  · rw [same]
    exact fun strict rule hr d hd apart => (composes.avoids strict rule hr d hd apart).mono wf₁ wf' le₁
  · rw [rules]
    intro strict c hc d hd
    obtain ⟨left, right⟩ := simplifies.avoids strict c (equations.subset hc) d hd
    exact ⟨left.mono wf₂ wf' le₂, right.mono wf₂ wf' le₂⟩
  · exact fun c hc => simplifies.proper c (equations.subset hc)

theorem interreduce_spec (obeys : ctx.order.Obeys G) (wf : s.WellFormed) (fine : Fine G s e) :
    Advancing G e s (interreduce ctx) fun _ e' s' => Interreduces G e s' e' := by
  rw [interreduce]
  refine Advancing.bind fine (compose_spec obeys wf fine) fun _ e₁ s₁ wf₁ le₁ adv₁ composes => ?_
  refine Advancing.bind adv₁.fine (simplify_spec obeys wf₁ adv₁.fine)
    fun _ e₂ s₂ wf₂ le₂ adv₂ simplifies => ?_
  refine .bindGet ?_
  split
  · refine Advancing.bind adv₂.fine (sortWorklist_spec obeys wf₂ adv₂.fine)
      fun _ e₃ s₃ wf₃ le₃ adv₃ sorted => ?_
    refine (tidy_spec wf₃ adv₃.fine).mono (fun _ e₄ s₄ wf₄ le₄ h => ?_) fun _ _ _ _ h => h
    obtain ⟨adv₄, rules, fewer, apart⟩ := h
    exact ⟨adv₄, composes.interreduces simplifies wf₁ wf₂ wf₄ (le₂.trans (le₃.trans le₄)) (le₃.trans le₄)
      (rules.trans sorted.1) (fewer.subperm.trans sorted.2.subperm) apart⟩
  · refine (tidy_spec wf₂ adv₂.fine).mono (fun _ e₃ s₃ wf₃ le₃ h => ?_) fun _ _ _ _ h => h
    obtain ⟨adv₃, rules, fewer, apart⟩ := h
    exact ⟨adv₃, composes.interreduces simplifies wf₁ wf₂ wf₃ (le₂.trans le₃) le₃ rules fewer.subperm
      apart⟩

end Engine
end OrderedCompletion
