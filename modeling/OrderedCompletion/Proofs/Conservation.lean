import OrderedCompletion.Proofs.Kbo
import OrderedCompletion.Proofs.Lpo
import OrderedCompletion.Proofs.Preservation

/-! The orders that come with the library introduce no variables, and so runs with them do not either. -/

namespace OrderedCompletion

/-- The second term has only variables of the first one. -/
def Term.Keeps (s t : Term) : Prop := ∀ v ∈ t.vars, v ∈ s.vars

namespace Term

variable {θ : Var → Term} {f : Head} {args pre post : List Term} {a s t u : Term}

theorem Keeps.refl (t : Term) : t.Keeps t := fun _ hv => hv

theorem Keeps.trans (h : s.Keeps t) (h' : t.Keeps u) : s.Keeps u := fun v hv => h v (h' v hv)

theorem Keeps.subst (h : s.Keeps t) : (s.subst θ).Keeps (t.subst θ) := by
  intro v hv
  obtain ⟨w, hw, hv⟩ := mem_vars_subst.1 hv
  exact mem_vars_subst.2 ⟨w, h w hw, hv⟩

theorem keeps_of_mem (ha : a ∈ args) : (app f args).Keeps a := fun _ hv => mem_vars_app.2 ⟨a, ha, hv⟩

theorem keeps_app (h : ∀ a ∈ args, s.Keeps a) : s.Keeps (.app f args) := by
  intro v hv
  obtain ⟨a, ha, hv⟩ := mem_vars_app.1 hv
  exact h a ha v hv

theorem Keeps.arg (h : s.Keeps t) :
    (Term.app f (pre ++ s :: post)).Keeps (.app f (pre ++ t :: post)) := by
  refine keeps_app fun a ha => ?_
  rcases List.mem_append.1 ha with ha | ha
  · exact keeps_of_mem (List.mem_append_left _ ha)
  · rcases List.mem_cons.1 ha with rfl | ha
    · exact (keeps_of_mem (by simp)).trans h
    · exact keeps_of_mem (List.mem_append_right _ (List.mem_cons_of_mem _ ha))

end Term

/-- A term that is no variable is greater than one that has only variables of its. -/
def Gauge.conserving : Gauge where
  sig := .full
  gt := fun s t => s.IsApp ∧ s.Keeps t
  strict := False
  distinct := False
  trans := fun _ _ _ h h' => ⟨h.1, h.2.trans h'.2⟩
  subst := fun _ _ _ h => ⟨h.1.subst, h.2.subst⟩
  arg := fun _ _ h => ⟨trivial, h.2.arg⟩
  irrefl := fun h => h.elim

theorem Gauge.keeps_of_le {s t : Term} (h : Gauge.conserving.le s t) : t.Keeps s := by
  rcases h with rfl | h
  · exact .refl s
  · exact h.2

variable {cmp : HeadComparison} {s : Store} {r q : Ref}

namespace Kbo

/-- Only an application is greater than something. -/
theorem greaterWithin_isApp {n : Nat} (wf : s.WellFormed) (hr : r < s.size) (hq : q < s.size) (enough : r < n) :
    s.Asks (greaterWithin cmp n r q) fun yes => yes = true → (s.term r).IsApp := by
  obtain ⟨node, hnode⟩ := Store.exists_node hr
  cases node with
  | var v =>
      cases n with
      | zero => exact .pure nofun
      | succ n =>
          rw [greaterWithin]
          split
          · exact .pure nofun
          · apply Store.Asks.bindGet
            intro s₁ same
            rw [same.node?, hnode]
            exact .pure nofun
  | app f rs =>
      have isApp : (s.term r).IsApp := by
        rw [wf.below.term_app hnode]
        exact trivial
      exact (says_unfolds.greaterWithin wf hr hq enough).mono fun _ _ _ => isApp

theorem greater_keeps (wf : s.WellFormed) (hr : r < s.size) (hq : q < s.size) :
    s.Ensures (greater cmp r q) fun yes _ =>
      yes = true → (s.term r).IsApp ∧ (s.term r).Keeps (s.term q) := by
  rw [greater]
  split
  · exact .pure wf fun no => by cases no
  · refine (Store.Ensures.get wf).bind ?_
    rintro _ s₁ - - ⟨rfl, rfl⟩
    split
    · rename_i yes
      have covered := covers_iff.1 yes
      rw [wf.below.occurrences_eq hr, wf.below.occurrences_eq hq] at covered
      refine (greaterWithin_isApp wf hr hq (Nat.lt_succ_of_lt hr) s₁ wf (.refl s₁)).mono ?_
      exact fun _ _ _ _ answer isYes => ⟨answer.2 isYes, fun v hv => Term.Covers.mem_vars covered hv⟩
    · exact .pure wf fun no => by cases no

end Kbo

namespace Lpo

theorem greater_keeps (wf : s.WellFormed) (hr : r < s.size) (hq : q < s.size) :
    s.Ensures (greater cmp r q) fun yes _ =>
      yes = true → (s.term r).IsApp ∧ (s.term r).Keeps (s.term q) := by
  have overR := (Store.denotes_term hr).over_full wf
  have overQ := (Store.denotes_term hq).over_full wf
  refine (says_unfolds.greater wf hr hq overR overQ).mono fun yes _ _ _ answer isYes => ?_
  have greater : Says cmp (s.term r) (s.term q) := answer.2.1 isYes
  exact ⟨greater.isApp, fun _ => greater.mem_vars⟩

end Lpo

/-- Both orders introduce no variables, whatever they hold of heads. -/
theorem Order.ofKind_conserves (cmp : HeadComparison) (kind : OrderKind) :
    (ofKind cmp kind).Obeys .conserving := by
  intro s r q a b wf ha hb _ _
  obtain ⟨hr, rfl⟩ := ha
  obtain ⟨hq, rfl⟩ := hb
  suffices h : s.Ensures ((ofKind cmp kind).greater r q) fun yes _ =>
      yes = true → (s.term r).IsApp ∧ (s.term r).Keeps (s.term q) from
    h.mono fun _ _ _ _ answer => ⟨answer, fun no => no.elim⟩
  cases kind with
  | kbo => exact Kbo.greater_keeps wf hr hq
  | lpo => exact Lpo.greater_keeps wf hr hq

theorem Order.ofKind_preserves (cmp : HeadComparison) (kind : OrderKind) : (ofKind cmp kind).Preserves := by
  intro s r q wf hr hq
  have ha : s.Denotes r (s.term r) := ⟨hr, rfl⟩
  have hb : s.Denotes q (s.term q) := ⟨hq, rfl⟩
  exact (ofKind_conserves cmp kind wf ha hb (ha.over_full wf) (hb.over_full wf)).mono fun _ _ _ _ _ => trivial

namespace Problem

open Engine

variable {p : Problem} {ctx : Context} {kind : OrderKind} {e : Engine} {u : Ref} {eq : Equation}
variable {x : EngineM Ref}

/-- The rules of a run whose order introduces no variables introduce none either. -/
theorem Kept.rule_keeps (kept : Kept .conserving p e s) (rule : eq ∈ e.rules) :
    ∃ l r, s.Means eq (l, r) ∧ l.IsApp ∧ l.Keeps r := by
  obtain ⟨l, r, means, -⟩ := kept.presents.fine.rules eq rule
  exact ⟨l, r, means, (kept.presents.fine.descends l r (Store.mem_theory rule means)).2.2⟩

/-- A term that such a run normalizes keeps its variables or loses some. -/
theorem Kept.normalizes_keeps {a : Term} (known : a.Over .full) (ok : answer x e s = .ok u)
    (kept : Keeping .conserving p.theory p.config.unfailing e s x fun out e' s' =>
      Aside e e' ∧ NormalFormOf .conserving e' s' a out) :
    ∃ b, (after x e s).2.Denotes u b ∧ a.Keeps b := by
  obtain ⟨inv, -, b, hb, reduces, -⟩ := Kept.answers kept ok
  exact ⟨b, hb, Gauge.keeps_of_le (reduces.le inv.fine.descends known)⟩

theorem Kept.reduce_keeps (kept : Kept .conserving p e s) (posed : p.Posed .full)
    (obeys : ctx.order.Obeys .conserving) (hr : r < s.size) (ok : answer (reduce ctx r) e s = .ok u) :
    ∃ b, (after (reduce ctx r) e s).2.Denotes u b ∧ (s.term r).Keeps b := by
  have hd := Store.denotes_term hr
  have known := hd.over_full kept.wellFormed
  exact normalizes_keeps known ok (reduce_spec obeys kept.wellFormed posed.fits kept.presents hd known)

theorem Kept.normalForm_keeps (kept : Kept .conserving p e s) (posed : p.Posed .full)
    (obeys : ctx.order.Obeys .conserving) (hr : r < s.size)
    (ok : answer (normalForm ctx r) e s = .ok u) :
    ∃ b, (after (normalForm ctx r) e s).2.Denotes u b ∧ (s.term r).Keeps b := by
  have hd := Store.denotes_term hr
  have known := hd.over_full kept.wellFormed
  exact normalizes_keeps known ok
    (normalForm_spec obeys kept.wellFormed posed.fits kept.presents hd known)

end Problem
end OrderedCompletion
