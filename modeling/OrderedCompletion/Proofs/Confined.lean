import OrderedCompletion.Proofs.Runs

/-! Superposition of ground rules stores only ground terms that are small enough, and does not fail. -/

namespace OrderedCompletion

/-- Ground terms over a signature, together with their arguments and with all terms below them. They are among
those that may be stored. -/
structure Realm (G : Gauge) (I J : Term → Prop) : Prop where
  ground : ∀ {t : Term}, I t → t.IsGround
  inSig : ∀ {t : Term}, I t → t.Over G.sig
  arg : ∀ {f : Head} {ts : List Term} {t : Term}, I (.app f ts) → t ∈ ts → I t
  below : ∀ {s t : Term}, I s → G.Below s t → I t
  storable : ∀ {t : Term}, I t → J t

theorem Realm.under {G : Gauge} {I J : Term → Prop} {s t : Term} (realm : Realm G I J) (hs : I s)
    (h : G.Under s t) : I t := by
  obtain ⟨ht, rfl | less⟩ := h
  · exact hs
  · exact realm.below hs ⟨ht, less⟩

namespace Store

variable {G : Gauge} {I J : Term → Prop} {s s' : Store} {r q u : Ref} {t a b : Term}

/-- All terms of the store are among those that may be stored. -/
def Confined (J : Term → Prop) (s : Store) : Prop := ∀ r < s.size, J (s.term r)

theorem SameTerms.confined (same : SameTerms s s') (h : s.Confined J) : s'.Confined J := by
  intro r hr
  rw [same.term]
  exact h r (same.size ▸ hr)

theorem intern_confined {node : Node} (wf : s.WellFormed) (admits : s.Admits node) (h : s.Confined J)
    (new : J ((intern node s).2.term (intern node s).1)) : (intern node s).2.Confined J := by
  obtain ⟨wf', le, -⟩ := intern_spec wf node admits
  cases found : s.refs.find? node with
  | some r =>
      have same : intern node s = (r, s) := by rw [intern, found]
      rwa [same]
  | none =>
      have same : intern node s = (s.size, s.pushed node) := by rw [intern, found]; rfl
      rw [same] at wf' le new ⊢
      intro r hr
      rw [size_pushed] at hr
      rcases Nat.lt_or_eq_of_le (Nat.le_of_lt_succ hr) with old | rfl
      · rw [wf.below.term_of_le wf'.below le old]
        exact h r old
      · exact new

theorem app_confined {f : Head} {args : List Ref} {ts : List Term} (wf : s.WellFormed)
    (h : s.DenotesAll args ts) (confined : s.Confined J) (new : J (.app f ts)) :
    s.Ensures (app f args) fun r s' => s'.Denotes r (.app f ts) ∧ s'.Confined J := by
  have admits : s.Admits (.app f args) := by
    intro a ha
    obtain ⟨t, -, hd⟩ := exists_of_forall₂_left h ha
    exact hd.1
  obtain ⟨wf', le, denotes⟩ := app_spec (f := f) wf h
  refine ⟨wf', le, denotes, intern_confined wf admits confined ?_⟩
  exact denotes.2.symm ▸ new

/-- Both sides of the equation are among given terms. -/
def Among (I : Term → Prop) (s : Store) (e : Equation) : Prop := ∃ l r, s.Means e (l, r) ∧ I l ∧ I r

/-- The same of all equations of a list. -/
def AmongAll (I : Term → Prop) (s : Store) (es : List Equation) : Prop := ∀ e ∈ es, s.Among I e

theorem Among.mono {e : Equation} (h : s.Among I e) (wf : s.WellFormed) (wf' : s'.WellFormed) (le : s ≤ s') :
    s'.Among I e := by
  obtain ⟨l, r, means, sides⟩ := h
  exact ⟨l, r, Equation.means_mono means wf wf' le, sides⟩

theorem AmongAll.mono {es : List Equation} (h : s.AmongAll I es) (wf : s.WellFormed) (wf' : s'.WellFormed)
    (le : s ≤ s') : s'.AmongAll I es :=
  fun e he => (h e he).mono wf wf' le

theorem AmongAll.of_subset {es es' : List Equation} (h : s.AmongAll I es) (sub : es' ⊆ es) :
    s.AmongAll I es' :=
  fun e he => h e (sub he)

/-- Ground terms stay as they are. -/
theorem apply_ground {σ : Subst} (wf : s.WellFormed) (hd : s.Denotes r t) (ground : t.IsGround) :
    s.Ensures (apply σ r) fun out s' => out = r ∧ SameTerms s s' := by
  rw [apply]
  split
  · exact .pure wf ⟨rfl, .refl s⟩
  · refine (Ensures.get wf).bind ?_
    rintro _ s₁ - - ⟨rfl, rfl⟩
    rw [bound, applyWithin]
    refine (vars_spec wf hd).bind ?_
    rintro vs s₂ wf₂ - ⟨rfl, same⟩
    rw [ground]
    exact .pure wf₂ ⟨rfl, same⟩

/-- The action changes nothing, and what it finds binds nothing. -/
def Idle (s : Store) (x : OptionT StoreM Subst) : Prop :=
  s.Ensures x.run fun out s' => s' = s ∧ ∀ σ, out = some σ → σ = .empty

theorem Idle.pure (wf : s.WellFormed) : s.Idle (Pure.pure .empty) :=
  .pureOption wf ⟨rfl, fun _ h => (Option.some.inj h).symm⟩

theorem Idle.foldlM {f : Subst → Ref × Ref → OptionT StoreM Subst} {pairs : List (Ref × Ref)}
    (wf : s.WellFormed) (h : ∀ pair ∈ pairs, s.Idle (f .empty pair)) : s.Idle (pairs.foldlM f .empty) := by
  induction pairs with
  | nil => exact .pure wf
  | cons pair pairs ih =>
      rw [List.foldlM_cons]
      refine Ensures.bindOption (h pair List.mem_cons_self) ?_ ?_
      · rintro σ _ - - ⟨rfl, unbound⟩
        rw [unbound σ rfl]
        exact ih fun pair hpair => h pair (List.mem_cons_of_mem _ hpair)
      · rintro _ - - ⟨rfl, -⟩
        exact ⟨rfl, nofun⟩

theorem unifyWithin_idle {n : Nat} (wf : s.WellFormed) (ha : s.Denotes r a) (hb : s.Denotes q b)
    (groundA : a.IsGround) (groundB : b.IsGround) : s.Idle (unifyWithin n .empty (r, q)) := by
  induction n generalizing r q a b with
  | zero => exact .failure wf ⟨rfl, nofun⟩
  | succ n ih =>
      rw [unifyWithin]
      refine Ensures.bindLift (Ensures.get wf) ?_
      rintro _ s₁ - - ⟨rfl, rfl⟩
      have followed : ∀ r, s₁.follow .empty r = r := fun _ => rfl
      simp only [followed]
      split
      · exact Idle.pure wf
      · cases a with
        | var v => cases groundA
        | missing r => exact absurd (ha.over_full wf) Term.not_over_missing
        | app f ss =>
            cases b with
            | var v => cases groundB
            | missing r => exact absurd (hb.over_full wf) Term.not_over_missing
            | app g ts =>
                obtain ⟨rs, nodeR, hrs⟩ := ha.node_app wf
                obtain ⟨qs, nodeQ, hqs⟩ := hb.node_app wf
                rw [nodeR, nodeQ]
                refine Ensures.bindGuard wf (fun _ => Idle.foldlM wf fun pair hpair => ?_)
                  fun _ => ⟨rfl, nofun⟩
                obtain ⟨hl, hr⟩ := List.of_mem_zip (List.mem_reverse.1 hpair)
                obtain ⟨x, hx, left⟩ := exists_of_forall₂_left hrs hl
                obtain ⟨y, hy, right⟩ := exists_of_forall₂_left hqs hr
                exact ih left right (groundA.arg hx) (groundB.arg hy)

/-- The unification of ground terms changes nothing. -/
theorem unify?_ground (wf : s.WellFormed) (ha : s.Denotes r a) (hb : s.Denotes q b)
    (groundA : a.IsGround) (groundB : b.IsGround) : s.Ensures (unify? r q).run fun _ s' => s' = s := by
  rw [unify?, unifyPairs?]
  refine Ensures.bindLift (Ensures.get wf) ?_
  rintro _ _ - - ⟨rfl, rfl⟩
  refine Ensures.bindOption (Idle.foldlM wf fun pair hpair => ?_) ?_ ?_
  · obtain rfl := List.mem_singleton.1 hpair
    exact unifyWithin_idle wf ha hb groundA groundB
  · rintro σ _ - - ⟨rfl, unbound⟩
    rw [unbound σ rfl]
    exact ⟨wf, le_rfl, rfl⟩
  · rintro _ - - ⟨rfl, -⟩
    rfl

theorem overlapsAt_ground {places : List (Position × Ref)} (wf : s.WellFormed) (ha : s.Denotes r a)
    (ground : a.IsGround) (known : ∀ place ∈ places, ∃ u, s.Denotes place.2 u ∧ u.IsGround) :
    s.Ensures (overlapsAt r places) fun _ s' => s' = s := by
  induction places with
  | nil => exact .pure wf rfl
  | cons place places ih =>
      obtain ⟨p, q⟩ := place
      obtain ⟨u, hu, groundU⟩ := known (p, q) List.mem_cons_self
      have rest := ih fun place hplace => known place (List.mem_cons_of_mem _ hplace)
      rw [overlapsAt]
      refine (unify?_ground wf hu ha groundU ground).bind ?_
      rintro out _ wf₁ - rfl
      cases out with
      | none => exact rest
      | some σ =>
          refine rest.bind ?_
          rintro found _ wf₂ - rfl
          exact .pure wf₂ rfl

theorem overlaps_ground (wf : s.WellFormed) (hg : s.Denotes q b) (ha : s.Denotes r a)
    (groundG : b.IsGround) (groundA : a.IsGround) : s.Ensures (overlaps q r) fun _ s' => s' = s := by
  rw [overlaps]
  refine (Ensures.get wf).bind ?_
  rintro _ _ - - ⟨rfl, rfl⟩
  refine overlapsAt_ground wf ha groundA fun place hplace => ?_
  obtain ⟨u, at_, -, hu⟩ := (mem_appPositions wf hg).1 hplace
  exact ⟨u, hu, groundG.subtermAt at_⟩

/-- A subterm that is replaced by a smaller one makes the term smaller. -/
theorem replaceAt_confined {p : Position} (realm : Realm G I J) (wf : s.WellFormed) (hd : s.Denotes r t)
    (ht : I t) (hu : s.Denotes u b) (at_ : t.subtermAt p = some a) (down : G.Below a b)
    (confined : s.Confined J) :
    s.Ensures (replaceAt r p u).run fun out s' =>
      s'.Confined J ∧ ∃ q, out = .ok q ∧ s'.Denotes q (Term.replaceAt b t p) := by
  refine replaceAt_keeps (D := I) wf hd hu at_ ht realm.arg confined ?_
  intro s' w i p f args ts wf' _ confined' hw at' hts same
  have hw' := realm.inSig hw
  have less : G.Below w (.app f ts) := by
    rw [same]
    exact ⟨hw'.replaceAt down.1, Gauge.gt_replaceAt hw' down.1 at' down.2⟩
  exact (app_confined wf' hts confined' (realm.storable (realm.below hw less))).2.2.2

end Store

/-- The order asks no stop, and leaves a store alone that it is asked about given terms. -/
structure Order.Quiet (I : Term → Prop) (o : Order) : Prop where
  alarm : ∀ s r q, o.alarm s r q = false
  same : ∀ {s : Store} {r q : Ref} {a b : Term}, s.WellFormed → s.Denotes r a → s.Denotes q b → I a → I b →
    s.Ensures (o.greater r q) fun _ s' => Store.SameTerms s s'

variable {G : Gauge} {I J : Term → Prop} {o : Order} {s : Store} {w : Workspace} {gd ab e : Equation}
variable {g d a b l r : Term}

namespace Workspace

/-- All terms are among those that may be stored, and no stop has been requested. -/
def Tame (J : Term → Prop) (w : Workspace) (s : Store) : Prop := s.Confined J ∧ w.stop = false

theorem Tame.same {s' : Store} (h : w.Tame J s) (same : Store.SameTerms s s') : w.Tame J s' :=
  ⟨same.confined h.1, h.2⟩

/-- Asking a quiet order changes nothing. -/
theorem ask_quiet {ε : Type} {r q : Ref} (quiet : o.Quiet I) (wf : s.WellFormed) (hr : s.Denotes r a)
    (hq : s.Denotes q b) (ha : I a) (hb : I b) : TermM.Ensures w s (ask o r q : TermM Workspace ε Bool)
      (fun _ w' s' => w' = w ∧ Store.SameTerms s s') fun _ _ => False := by
  refine .bindStore (.bindModify (.lift (quiet.same wf hr hq ha hb) fun _ _ _ _ same => ⟨?_, same⟩))
  rw [quiet.alarm, Bool.or_false]

theorem askEither_quiet {ε : Type} (quiet : o.Quiet I) (wf : s.WellFormed) (h : s.Among I e) :
    TermM.Ensures w s (askEither o e.lhs e.rhs : TermM Workspace ε Bool)
      (fun _ w' s' => w' = w ∧ Store.SameTerms s s') fun _ _ => False := by
  obtain ⟨l, r, means, hl, hr⟩ := h
  refine (ask_quiet quiet wf means.1 means.2 hl hr).bind ?_
  rintro yes _ s₁ wf₁ le₁ ⟨rfl, same₁⟩
  split
  · exact .pure wf₁ ⟨rfl, same₁⟩
  · have means₁ := Equation.means_mono means wf wf₁ le₁
    refine (ask_quiet quiet wf₁ means₁.2 means₁.1 hr hl).mono ?_ fun _ _ _ _ h => h
    rintro yes _ s₂ - - ⟨rfl, same₂⟩
    exact ⟨rfl, same₁.trans same₂⟩

/-- An equation without variables is not renamed. -/
theorem renameApart_ground (wf : s.WellFormed) (he : s.Means e (l, r)) (ground : l.IsGround ∧ r.IsGround) :
    TermM.Ensures w s (renameApart e) (fun e' w' s' => e' = e ∧ w' = w ∧ Store.SameTerms s s')
      fun _ _ => False := by
  rw [renameApart]
  refine .bindLift (Equation.vars_spec wf he) ?_
  rintro vs s₁ wf₁ le₁ ⟨rfl, same⟩
  rw [ground.1, ground.2]
  exact ⟨wf₁, le_rfl, rfl, rfl, same⟩

end Workspace

theorem Equation.apply_ground {σ : Subst} (wf : s.WellFormed) (he : s.Means e (l, r))
    (ground : l.IsGround ∧ r.IsGround) :
    s.Ensures (e.apply σ) fun e' s' => e' = e ∧ Store.SameTerms s s' := by
  refine (Store.apply_ground wf he.1 ground.1).bind ?_
  rintro _ s₁ wf₁ le₁ ⟨rfl, same₁⟩
  refine (Store.apply_ground wf₁ (he.2.mono wf wf₁ le₁) ground.2).bind ?_
  rintro _ s₂ wf₂ le₂ ⟨rfl, same₂⟩
  exact .pure wf₂ ⟨rfl, same₁.trans same₂⟩

/-- The equation is a rule between given terms that goes down. -/
def Store.Falls (G : Gauge) (I : Term → Prop) (s : Store) (e : Equation) : Prop :=
  ∃ l r, s.Means e (l, r) ∧ I l ∧ G.Below l r

theorem Store.Falls.mono {s' : Store} (h : s.Falls G I e) (wf : s.WellFormed) (wf' : s'.WellFormed)
    (le : s ≤ s') : s'.Falls G I e := by
  obtain ⟨l, r, means, down⟩ := h
  exact ⟨l, r, Equation.means_mono means wf wf' le, down⟩

/-- The action never fails and stores only what may be stored. -/
abbrev Workspace.Minds {ε α : Type} (J : Term → Prop) (w : Workspace) (s : Store)
    (x : TermM Workspace ε α) : Prop :=
  TermM.Ensures w s x (fun _ w' s' => w'.Tame J s') fun _ _ => False

namespace Superposition

open Workspace (Tame Minds)

theorem pairAt_minds {here : Overlap} {θ : Var → Term} (realm : Realm G I J) (quiet : o.Quiet I)
    (wf : s.WellFormed) (tame : w.Tame J s) (hgd : s.Means gd (g, d)) (hg : I g) (outer : G.Below g d)
    (hab : s.Means ab (a, b)) (ha : I a) (down : G.Below a b) (unifies : here.Unifies s g a θ) :
    w.Minds J s (pairAt o gd ab here) := by
  have hd := realm.below hg outer
  have hb := realm.below ha down
  obtain ⟨-, u, at_, -, mgu⟩ := unifies
  obtain rfl : u = a := by
    have same := mgu.unifies
    rwa [((realm.ground hg).subtermAt at_).subst_eq, (realm.ground ha).subst_eq] at same
  rw [pairAt]
  refine .bindLift (Equation.apply_ground wf hgd ⟨realm.ground hg, realm.ground hd⟩) ?_
  rintro gd s₁ wf₁ le₁ ⟨rfl, same₁⟩
  have hgd₁ := Equation.means_mono hgd wf wf₁ le₁
  split
  · exact .pure wf₁ (tame.same same₁)
  refine (Workspace.ask_quiet quiet wf₁ hgd₁.2 hgd₁.1 hd hg).bind ?_
  rintro up _ s₂ wf₂ le₂ ⟨rfl, same₂⟩
  have tame₂ := (tame.same same₁).same same₂
  have hab₂ := Equation.means_mono hab wf wf₂ (le₁.trans le₂)
  split
  · exact .pure wf₂ tame₂
  refine .bindLift (Equation.apply_ground wf₂ hab₂ ⟨realm.ground ha, realm.ground hb⟩) ?_
  rintro ab s₃ wf₃ le₃ ⟨rfl, same₃⟩
  have hab₃ := Equation.means_mono hab₂ wf₂ wf₃ le₃
  split
  · exact .pure wf₃ (tame₂.same same₃)
  refine (Workspace.ask_quiet quiet wf₃ hab₃.2 hab₃.1 hb ha).bind ?_
  rintro up' _ s₄ wf₄ le₄ ⟨rfl, same₄⟩
  have tame₄ := (tame₂.same same₃).same same₄
  split
  · exact .pure wf₄ tame₄
  have hab₄ := Equation.means_mono hab₃ wf₃ wf₄ le₄
  have hgd₄ := Equation.means_mono hgd₁ wf₁ wf₄ (le₂.trans (le₃.trans le₄))
  have less : G.Below g (Term.replaceAt b g here.position) :=
    ⟨(realm.inSig hg).replaceAt down.1, Gauge.gt_replaceAt (realm.inSig hg) down.1 at_ down.2⟩
  refine .bindLift (Store.replaceAt_confined realm wf₄ hgd₄.1 hg hab₄.2 at_ down tame₄.1) ?_
  rintro _ s₅ wf₅ le₅ ⟨confined₅, q', rfl, hq⟩
  refine .bindLift (Store.apply_ground wf₅ hq (realm.ground (realm.below hg less))) ?_
  rintro _ s₆ wf₆ le₆ ⟨rfl, same₆⟩
  exact .pure wf₆ (Tame.same ⟨confined₅, tame₄.2⟩ same₆)

theorem pairsAt_minds {heres : List Overlap} {found : List Equation} (realm : Realm G I J) (quiet : o.Quiet I)
    (wf : s.WellFormed) (tame : w.Tame J s) (hgd : s.Means gd (g, d)) (hg : I g) (outer : G.Below g d)
    (hab : s.Means ab (a, b)) (ha : I a) (down : G.Below a b)
    (unifies : ∀ here ∈ heres, ∃ θ, here.Unifies s g a θ) :
    w.Minds J s (pairsAt o gd ab found heres) := by
  induction heres generalizing w s found with
  | nil => exact .pure wf tame
  | cons here heres ih =>
      obtain ⟨θ, hθ⟩ := unifies here List.mem_cons_self
      rw [pairsAt]
      refine (pairAt_minds realm quiet wf tame hgd hg outer hab ha down hθ).bind
        fun out w₁ s₁ wf₁ le₁ tame₁ => ?_
      have rest : ∀ found', w₁.Minds J s₁ (pairsAt o gd ab found' heres) := by
        refine fun found' => ih wf₁ tame₁ (Equation.means_mono hgd wf wf₁ le₁)
          (Equation.means_mono hab wf wf₁ le₁) fun here' h => ?_
        obtain ⟨η, hη⟩ := unifies here' (List.mem_cons_of_mem _ h)
        exact ⟨η, hη.mono wf wf₁ le₁⟩
      cases out with
      | none => exact rest _
      | some pair => exact rest _

end Superposition

open Workspace in
theorem criticalPairs_minds (realm : Realm G I J) (quiet : o.Quiet I) (wf : s.WellFormed) (tame : w.Tame J s)
    (outer : s.Falls G I gd) (inner : s.Falls G I ab) : w.Minds J s (criticalPairs o gd ab) := by
  obtain ⟨g, d, hgd, hg, outer⟩ := outer
  obtain ⟨a, b, hab, ha, down⟩ := inner
  have groundG := realm.ground hg
  have groundA := realm.ground ha
  rw [criticalPairs]
  refine (renameApart_ground wf hab ⟨groundA, realm.ground (realm.below ha down)⟩).adapt.bind ?_
  rintro ab _ s₁ wf₁ le₁ ⟨rfl, rfl, same₁⟩
  have hgd₁ := Equation.means_mono hgd wf wf₁ le₁
  refine (renameApart_ground wf₁ hgd₁ ⟨groundG, realm.ground (realm.below hg outer)⟩).adapt.bind ?_
  rintro gd _ s₂ wf₂ le₂ ⟨rfl, rfl, same₂⟩
  have tame₂ := (tame.same same₁).same same₂
  have hgd₂ := Equation.means_mono hgd₁ wf₁ wf₂ le₂
  have hab₂ := Equation.means_mono hab wf wf₂ (le₁.trans le₂)
  have still := Store.overlaps_ground wf₂ hgd₂.1 hab₂.1 groundG groundA
  refine .bindLift ((Store.overlaps_spec wf₂ hgd₂.1 hab₂.1).and still) ?_
  rintro heres s₃ wf₃ le₃ ⟨⟨unifies, -⟩, rfl⟩
  exact Superposition.pairsAt_minds realm quiet wf₃ tame₂ hgd₂ hg outer hab₂ ha down unifies

namespace Superposer

open Workspace (Tame)

/-- A superposition that never fails and stores only what may be stored. -/
abbrev Minds {α : Type} (J : Term → Prop) (sp : Superposer) (s : Store)
    (x : TermM Superposer OverlapError α) : Prop :=
  TermM.Ensures sp s x (fun _ sp' s' => sp'.workspace.Tame J s') fun _ _ => False

theorem onWorkspace_minds {sp : Superposer} {α : Type} {x : TermM Workspace OverlapError α}
    (h : sp.workspace.Minds J s x) : sp.Minds J s (onWorkspace x) := by
  refine (TermM.Ensures.within h).mono ?_ ?_
  · rintro _ _ _ - - ⟨w', rfl, tame⟩
    exact tame
  · rintro _ _ - - ⟨_, -, no⟩
    exact no

theorem superposeAll_minds {sp : Superposer} {donors : List (Equation × Equation)} (realm : Realm G I J)
    (quiet : o.Quiet I) (wf : s.WellFormed) (tame : sp.workspace.Tame J s)
    (falls : ∀ d ∈ donors, s.Falls G I d.1 ∧ s.Falls G I d.2) : sp.Minds J s (superposeAll o donors) := by
  suffices gen : ∀ found : List Equation, sp.Minds J s (donors.foldlM (superpose o) found) from gen []
  induction donors generalizing sp s with
  | nil => exact fun _ => .pure wf tame
  | cons donor donors ih =>
      intro found
      obtain ⟨outer, inner⟩ := falls donor List.mem_cons_self
      have first : sp.Minds J s (superpose o found donor) := by
        rw [superpose]
        refine .bindGet ?_
        split
        · exact .pure wf tame
        · refine .bindModify ?_
          have pairs : Minds J { sp with seen := sp.seen.insert donor () } s
              (onWorkspace (criticalPairs o donor.1 donor.2)) :=
            onWorkspace_minds (criticalPairs_minds realm quiet wf tame outer inner)
          exact pairs.bind fun _ _ _ wf₁ _ tame₁ => .pure wf₁ tame₁
      rw [List.foldlM_cons]
      refine first.bind fun out sp₁ s₁ wf₁ le₁ tame₁ => ih wf₁ tame₁ (fun d hd => ?_) out
      obtain ⟨outer, inner⟩ := falls d (List.mem_cons_of_mem _ hd)
      exact ⟨outer.mono wf wf₁ le₁, inner.mono wf wf₁ le₁⟩

end Superposer
end OrderedCompletion
