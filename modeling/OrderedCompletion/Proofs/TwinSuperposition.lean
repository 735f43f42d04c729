import OrderedCompletion.Proofs.TwinDraws

/-! Superposition, side by side. -/

namespace OrderedCompletion

open Term Parallel TermM Workspace

namespace Parallel

variable {P P' : Parallel} {seen seen' : Index (Equation × Equation) Unit}
variable {x y : Equation × Equation} {es ds rules rules' : List Equation} {e d : Equation}

/-- Pairs of equations that correspond. -/
def TwinPair (P : Parallel) (x y : Equation × Equation) : Prop := P.TwinEq x.1 y.1 ∧ P.TwinEq x.2 y.2

theorem TwinPair.mono (h : P.TwinPair x y) (ext : P.Extends P') : P'.TwinPair x y := ⟨h.1.mono ext, h.2.mono ext⟩

theorem TwinEq.biUnique (P : Parallel) : Relator.BiUnique P.TwinEq :=
  ⟨fun _ _ _ h h' => (h.eq_iff h').2 rfl, fun _ _ _ h h' => (h.eq_iff h').1 rfl⟩

theorem TwinPair.biUnique (P : Parallel) : Relator.BiUnique P.TwinPair :=
  ⟨fun _ _ _ h h' => Prod.ext ((TwinEq.biUnique P).1 h.1 h'.1) ((TwinEq.biUnique P).1 h.2 h'.2),
    fun _ _ _ h h' => Prod.ext ((TwinEq.biUnique P).2 h.1 h'.1) ((TwinEq.biUnique P).2 h.2 h'.2)⟩

/-- The same pairs of donors were superposed. -/
structure TwinSeen (P : Parallel) (seen seen' : Index (Equation × Equation) Unit) : Prop where
  left : ∀ x, seen.contains x = true → ∃ y, P.TwinPair x y ∧ seen'.contains y = true
  right : ∀ y, seen'.contains y = true → ∃ x, P.TwinPair x y ∧ seen.contains x = true

theorem TwinSeen.mono (h : P.TwinSeen seen seen') (ext : P.Extends P') : P'.TwinSeen seen seen' where
  left := fun x hx => (h.left x hx).imp fun _ h => ⟨h.1.mono ext, h.2⟩
  right := fun y hy => (h.right y hy).imp fun _ h => ⟨h.1.mono ext, h.2⟩

theorem twinSeen_empty (P : Parallel) : P.TwinSeen .empty .empty where
  left := fun x hx => by simp [Index.contains] at hx
  right := fun x hx => by simp [Index.contains] at hx

theorem TwinSeen.contains_eq (h : P.TwinSeen seen seen') (pair : P.TwinPair x y) :
    seen'.contains y = seen.contains x := by
  refine Bool.eq_iff_iff.2 ⟨fun hy => ?_, fun hx => ?_⟩
  · obtain ⟨x', pair', hx⟩ := h.right y hy
    exact (TwinPair.biUnique P).1 pair' pair ▸ hx
  · obtain ⟨y', pair', hy⟩ := h.left x hx
    exact (TwinPair.biUnique P).2 pair' pair ▸ hy

theorem TwinSeen.insert (h : P.TwinSeen seen seen') (pair : P.TwinPair x y) :
    P.TwinSeen (seen.insert x ()) (seen'.insert y ()) where
  left := by
    intro z hz
    rcases Superposer.contains_insert.1 hz with rfl | hz
    · exact ⟨y, pair, Superposer.contains_insert.2 (.inl rfl)⟩
    · exact (h.left z hz).imp fun _ h => ⟨h.1, Superposer.contains_insert.2 (.inr h.2)⟩
  right := by
    intro z hz
    rcases Superposer.contains_insert.1 hz with rfl | hz
    · exact ⟨x, pair, Superposer.contains_insert.2 (.inl rfl)⟩
    · exact (h.right z hz).imp fun _ h => ⟨h.1, Superposer.contains_insert.2 (.inr h.2)⟩

theorem ruleDonors_twins (h : List.Forall₂ P.TwinEq rules rules') (here : P.TwinEq e d) :
    List.Forall₂ P.TwinPair (Superposer.ruleDonors rules e) (Superposer.ruleDonors rules' d) :=
  List.rel_flatMap h fun _ _ rule => .cons ⟨here, rule⟩ (.cons ⟨rule, here⟩ .nil)

theorem allDonors_twins (h : List.Forall₂ P.TwinEq es ds) (h' : List.Forall₂ P.TwinEq rules rules')
    (here : P.TwinEq e d) :
    List.Forall₂ P.TwinPair (Superposer.allDonors es rules e) (Superposer.allDonors ds rules' d) := by
  have sides : ∀ {e d : Equation}, P.TwinEq e d → List.Forall₂ P.TwinEq [e, e.reversed] [d, d.reversed] :=
    fun h => .cons h (.cons h.reversed .nil)
  have others := foldl_addNew_rel (TwinEq.biUnique P) h (sides here)
  refine List.rel_append (List.rel_flatMap others fun gd gd' hgd => List.rel_flatMap (sides here) fun _ _ side => ?_)
    (List.rel_flatMap h' fun _ _ rule => List.rel_flatMap (sides here) fun _ _ side => ?_)
  · exact List.rel_flatMap (sides hgd) fun _ _ other => .cons ⟨side, other⟩ (.cons ⟨other, side⟩ .nil)
  · exact .cons ⟨side, rule⟩ (.cons ⟨rule, side⟩ .nil)

end Parallel

section
variable {P : Parallel} {V : Set Var} {c c' : Term × Term} {o : Order} {gt : Term → Term → Prop}
variable (judges : o.Judges WordSized .full gt) (quiet : ∀ s r q, o.alarm s r q = false)
include judges quiet

namespace Superposition

variable {w w' : Workspace} {gd gd' ab ab' : Equation}

theorem pairAt_mirrors {here here' : Overlap} (hgd : P.Shows c gd gd') (hab : P.Shows c' ab ab')
    (drawn : V ⊆ P.Drawn) (outer : ∀ v, v ∈ c.1.vars ∨ v ∈ c.2.vars → v ∈ V)
    (inner : ∀ v, v ∈ c'.1.vars ∨ v ∈ c'.2.vars → v ∈ V) (at_ : P.TwinOverlap V c.1 here here') :
    Mirrors P w w' (pairAt o gd ab here) (pairAt o gd' ab' here') fun P' out out' _ _ =>
      Option.Rel P'.TwinEq out out' := by
  obtain ⟨place, ⟨u, hu⟩, θ, couples, inside⟩ := at_
  have made : ∀ {P' : Parallel} {t : Term}, P.Extends P' → (∀ v ∈ t.vars, v ∈ V) →
      ∀ v ∈ (t.subst θ).vars, v ∈ P'.Drawn := by
    intro P' t ext sub v hv
    obtain ⟨w, hw, hv⟩ := mem_vars_subst.1 hv
    exact ext.drawn (drawn (inside w (sub w hw) v hv))
  rw [pairAt, pairAt]
  refine .bindLift (equationApply_does couples hgd outer) ?_
  rintro P₁ e d ext₁ ⟨left, right⟩
  have shows := shows_of_drawn left right (made ext₁ fun v hv => outer v (.inl hv))
    (made ext₁ fun v hv => outer v (.inr hv))
  rw [shows.isTrivial_eq]
  cases e.isTrivial with
  | true => exact .pure .none
  | false =>
  refine (ask_mirrors judges quiet right left).bind ?_
  rintro P₂ _ yes w₂ w₂' ext₂ ⟨rfl, -⟩
  cases yes with
  | true => exact .pure .none
  | false =>
  have ext := ext₁.trans ext₂
  refine .bindLift (equationApply_does (couples.mono ext) (hab.mono ext) inner) ?_
  rintro P₃ e' d' ext₃ ⟨left', right'⟩
  have ext := ext.trans ext₃
  have shows' := shows_of_drawn left' right' (made ext fun v hv => inner v (.inl hv))
      (made ext fun v hv => inner v (.inr hv))
  rw [shows'.isTrivial_eq]
  cases e'.isTrivial with
  | true => exact .pure .none
  | false =>
  refine (ask_mirrors judges quiet right' left').bind ?_
  rintro P₄ _ yes w₄ w₄' ext₄ ⟨rfl, -⟩
  cases yes with
  | true => exact .pure .none
  | false =>
  have ext := ext.trans ext₄
  rw [← place]
  refine .bindLift (replaceAt_does (hgd.lhs.mono ext) (hab.rhs.mono ext) hu) ?_
  rintro P₅ _ _ ext₅ ⟨x, y, rfl, rfl, reads⟩
  have ext := ext.trans ext₅
  have sub : ∀ v ∈ (Term.replaceAt c'.2 c.1 here.position).vars, v ∈ V := fun v hv =>
    (mem_vars_replaceAt hv).elim (fun hv => outer v (.inl hv)) fun hv => inner v (.inr hv)
  refine .bindLift (apply_does (couples.mono ext) reads sub) ?_
  intro P₆ x' y' ext₆ reads'
  have right := right.mono (((ext₂.trans ext₃).trans (ext₄.trans ext₅)).trans ext₆)
  have ext := ext.trans ext₆
  exact .pure (.some ⟨_, shows_of_drawn right reads' (made ext fun v hv => outer v (.inr hv)) (made ext sub)⟩)

theorem pairsAt_mirrors {heres heres' : List Overlap} {found found' : List Equation} (hgd : P.Shows c gd gd')
    (hab : P.Shows c' ab ab') (drawn : V ⊆ P.Drawn) (outer : ∀ v, v ∈ c.1.vars ∨ v ∈ c.2.vars → v ∈ V)
    (inner : ∀ v, v ∈ c'.1.vars ∨ v ∈ c'.2.vars → v ∈ V) (at_ : List.Forall₂ (P.TwinOverlap V c.1) heres heres')
    (old : List.Forall₂ P.TwinEq found found') :
    Mirrors P w w' (pairsAt o gd ab found heres) (pairsAt o gd' ab' found' heres') fun P' out out' _ _ =>
      List.Forall₂ P'.TwinEq out out' := by
  induction heres generalizing P w w' found found' heres' with
  | nil =>
      cases at_
      exact .pure old
  | cons here heres ih =>
      cases at_ with
      | @cons _ here' _ heres' first rest =>
      refine (pairAt_mirrors judges quiet hgd hab drawn outer inner first).bind ?_
      intro P₁ out out' w₁ w₁' ext both
      have old₁ := old.imp fun _ _ h => h.mono ext
      have onward : ∀ {found found'}, List.Forall₂ P₁.TwinEq found found' →
          Mirrors P₁ w₁ w₁' (pairsAt o gd ab found heres) (pairsAt o gd' ab' found' heres') fun P' out out' _ _ =>
            List.Forall₂ P'.TwinEq out out' :=
        ih (hgd.mono ext) (hab.mono ext) (drawn.trans ext.drawn) (rest.imp fun _ _ h => h.mono ext)
      cases both with
      | none => exact onward old₁
      | some pair => exact onward (addNew_rel (TwinEq.biUnique P₁) pair old₁)

end Superposition

open Superposition in
theorem criticalPairs_mirrors {w w' : Workspace} {gd gd' ab ab' : Equation} (hgd : P.TwinEq gd gd')
    (hab : P.TwinEq ab ab') :
    Mirrors P w w' (criticalPairs o gd ab) (criticalPairs o gd' ab') fun P' out out' _ _ =>
      List.Forall₂ P'.TwinEq out out' := by
  obtain ⟨c, hgd⟩ := hgd
  obtain ⟨c', hab⟩ := hab
  rw [criticalPairs, criticalPairs]
  refine (renameApart_mirrors hab).adapt.bind ?_
  rintro P₁ ab ab' w₁ w₁' ext₁ ⟨c', hab, inner⟩
  refine (renameApart_mirrors (hgd.mono ext₁)).adapt.bind ?_
  rintro P₂ gd gd' w₂ w₂' ext₂ ⟨c, hgd, outer⟩
  have hab := hab.mono ext₂
  have inner := fun v hv => ext₂.drawn (inner v hv)
  refine .bindLift (overlaps_does hgd.lhs hab.lhs subset_rfl (fun v hv => outer v (.inl hv))
    fun v hv => inner v (.inl hv)) ?_
  intro P₃ heres heres' ext₃ at_
  exact pairsAt_mirrors judges quiet (hgd.mono ext₃) (hab.mono ext₃) ext₃.drawn outer inner at_ .nil

namespace Superposer

variable {sp sp' : Superposer}

/-- Outcomes that correspond, after which the same donors have been seen. -/
def Agree (P : Parallel) (out out' : List Equation) (sp sp' : Superposer) : Prop :=
  List.Forall₂ P.TwinEq out out' ∧ P.TwinSeen sp.seen sp'.seen

theorem superpose_mirrors {found found' : List Equation} {donors donors' : Equation × Equation}
    (old : Agree P found found' sp sp') (pair : P.TwinPair donors donors') :
    Mirrors P sp sp' (superpose o found donors) (superpose o found' donors') Agree := by
  rw [superpose, superpose]
  refine .bindGet ?_
  rw [old.2.contains_eq pair]
  cases sp.seen.contains donors with
  | true => exact .pure old
  | false =>
  refine .bindModify rfl rfl ?_
  refine (Mirrors.within (T := fun P' out out' sp sp' => Agree P' out out' sp sp')
    (criticalPairs_mirrors judges quiet pair.1 pair.2) (fun _ => rfl) (fun _ _ => rfl) ?_).bind ?_
  · intro P₁ out out' w₁ w₁' ext both
    exact ⟨both, (old.2.insert pair).mono ext⟩
  · intro P₁ pairs pairs' sp₁ sp₁' ext both
    exact .pure ⟨foldl_addNew_rel (TwinEq.biUnique P₁) (old.1.imp fun _ _ h => h.mono ext) both.1, both.2⟩

theorem superposeAll_mirrors {donors donors' : List (Equation × Equation)} (seen : P.TwinSeen sp.seen sp'.seen)
    (pairs : List.Forall₂ P.TwinPair donors donors') :
    Mirrors P sp sp' (superposeAll o donors) (superposeAll o donors') Agree :=
  .foldlM (S := TwinPair) (fun _ _ _ ext h => h.mono ext) pairs ⟨.nil, seen⟩
    fun _ _ _ _ _ _ _ _ pair old => superpose_mirrors judges quiet old pair

end Superposer

end
end OrderedCompletion
