import Mathlib.Data.List.Forall2
import Mathlib.Order.WellFounded
import OrderedCompletion.Proofs.Equational

/-! Reduction orders, and replacing equations by others without passing larger terms. -/

namespace OrderedCompletion

/-- The laws of a reduction order on the terms over a signature. -/
structure ReductionOrder (sig : Signature) (gt : Term → Term → Prop) : Prop where
  irrefl : ∀ {s : Term}, s.Over sig → ¬ gt s s
  trans : ∀ {s t u : Term}, s.Over sig → t.Over sig → u.Over sig → gt s t → gt t u → gt s u
  wf : WellFounded fun t s : Term => t.Over sig ∧ s.Over sig ∧ gt s t
  subst : ∀ {s t : Term} {θ : Var → Term}, s.Over sig → t.Over sig → (∀ v, (θ v).Over sig) →
    gt s t → gt (s.subst θ) (t.subst θ)
  arg : ∀ {f : Head} {pre post : List Term} {s t : Term},
    (Term.app f (pre ++ s :: post)).Over sig → (Term.app f (pre ++ t :: post)).Over sig → gt s t →
    gt (.app f (pre ++ s :: post)) (.app f (pre ++ t :: post))

/-- What is known of an order: a positive answer tells `gt`, and only if the gauge is strict a negative
one denies it. What a gauge that is not strict says about `gt` may be empty. Of the supply it may be known
that no fresh variable comes twice. -/
structure Gauge where
  sig : Signature
  gt : Term → Term → Prop
  strict : Prop
  distinct : Prop
  trans : ∀ {s t u : Term}, s.Over sig → t.Over sig → u.Over sig → gt s t → gt t u → gt s u
  subst : ∀ {s t : Term} {θ : Var → Term}, s.Over sig → t.Over sig → (∀ v, (θ v).Over sig) →
    gt s t → gt (s.subst θ) (t.subst θ)
  arg : ∀ {f : Head} {pre post : List Term} {s t : Term},
    (Term.app f (pre ++ s :: post)).Over sig → (Term.app f (pre ++ t :: post)).Over sig → gt s t →
    gt (.app f (pre ++ s :: post)) (.app f (pre ++ t :: post))
  irrefl : strict → ∀ {s : Term}, s.Over sig → ¬ gt s s

/-- Nothing is known. -/
def Gauge.free : Gauge where
  sig := .full
  gt := fun _ _ => True
  strict := False
  distinct := False
  trans := fun _ _ _ _ _ => trivial
  subst := fun _ _ _ _ => trivial
  arg := fun _ _ _ => trivial
  irrefl := fun h => h.elim

/-- The answers are those of a reduction order. -/
def ReductionOrder.gauge {sig : Signature} {gt : Term → Term → Prop} (h : ReductionOrder sig gt)
    (distinct : Prop := True) : Gauge where
  sig := sig
  gt := gt
  strict := True
  distinct := distinct
  trans := h.trans
  subst := h.subst
  arg := h.arg
  irrefl := fun _ => h.irrefl

/-- The same for runs that draw no fresh variables: nothing is known of their supply. -/
abbrev ReductionOrder.groundGauge {sig : Signature} {gt : Term → Term → Prop} (h : ReductionOrder sig gt) :
    Gauge :=
  h.gauge False

/-- Outside of the sides of an equation a substitution may be taken to be over the signature. -/
theorem exists_over_subst {sig : Signature} {l r : Term} {θ : Var → Term} (hl : (l.subst θ).Over sig)
    (hr : (r.subst θ).Over sig) :
    ∃ η : Var → Term, (∀ v, (η v).Over sig) ∧ l.subst η = l.subst θ ∧ r.subst η = r.subst θ := by
  refine ⟨fun v => if v ∈ l.vars ∨ v ∈ r.vars then θ v else .var v, fun v => ?_, ?_, ?_⟩
  · dsimp only
    split
    · rename_i hv
      rcases hv with hv | hv
      · exact hl.of_mem_vars hv
      · exact hr.of_mem_vars hv
    · exact .var v
  · exact Term.subst_congr fun v hv => if_pos (.inl hv)
  · exact Term.subst_congr fun v hv => if_pos (.inr hv)

namespace Gauge

/-- Negative answers are known as well, and no fresh variable comes twice. -/
def Sharp (G : Gauge) : Prop := G.strict ∧ G.distinct

def le (G : Gauge) (s t : Term) : Prop := s = t ∨ G.gt t s

/-- Terms over the signature that are at most a term. -/
def Under (G : Gauge) (w z : Term) : Prop := z.Over G.sig ∧ G.le z w

/-- Terms over the signature that are less than a term. -/
def Below (G : Gauge) (w z : Term) : Prop := z.Over G.sig ∧ G.gt w z

/-- Terms over the signature that are at most one of two terms. -/
def Within (G : Gauge) (a b z : Term) : Prop := G.Under a z ∨ G.Under b z

/-- A chain of uses of equations all terms of which are at most the first one. -/
def Descent (G : Gauge) (T : Theory) (s t : Term) : Prop := Conv T (G.Under s) s t

/-- Every instance of the equation can be replaced by a chain that passes no larger terms. -/
def Bridges (G : Gauge) (T : Theory) (l r : Term) : Prop :=
  ∀ θ : Var → Term, (∀ v, (θ v).Over G.sig) →
    Conv T (G.Within (l.subst θ) (r.subst θ)) (l.subst θ) (r.subst θ)

/-- Every equation of `T` can be replaced by chains of uses of `T'`. -/
def Covers (G : Gauge) (T T' : Theory) : Prop := ∀ l r, (l, r) ∈ T → G.Bridges T' l r

/-- Both sides of all equations are over the signature. -/
def Fits (G : Gauge) (T : Theory) : Prop := ∀ l r, (l, r) ∈ T → l.Over G.sig ∧ r.Over G.sig

/-- The two results of an overlap of `ab` into `gd` that goes down both ways are connected below the
overlapped term. -/
def Connects (G : Gauge) (T : Theory) (gd ab : Term × Term) : Prop :=
  ∀ (p : Position) (u : Term) (ρ τ : Var → Term), (∀ v, (ρ v).Over G.sig) → (∀ v, (τ v).Over G.sig) →
    gd.1.subtermAt p = some u → u.IsApp → u.subst ρ = ab.1.subst τ →
    G.gt (gd.1.subst ρ) (gd.2.subst ρ) → G.gt (ab.1.subst τ) (ab.2.subst τ) →
    Conv T (G.Below (gd.1.subst ρ)) (gd.2.subst ρ)
      (Term.replaceAt (ab.2.subst τ) (gd.1.subst ρ) p)

section
variable {G : Gauge} {T T' T'' : Theory} {l r s t u w : Term} {P : Term → Prop} {θ : Var → Term}

theorem le_refl (t : Term) : G.le t t := .inl rfl

theorem le_trans (hs : s.Over G.sig) (ht : t.Over G.sig) (hu : u.Over G.sig) (h : G.le s t)
    (h' : G.le t u) : G.le s u := by
  rcases h with rfl | h
  · exact h'
  · rcases h' with rfl | h'
    · exact .inr h
    · exact .inr (G.trans hu ht hs h' h)

theorem gt_of_gt_of_le (hs : s.Over G.sig) (ht : t.Over G.sig) (hu : u.Over G.sig) (h : G.gt s t)
    (h' : G.le u t) : G.gt s u := by
  rcases h' with rfl | h'
  · exact h
  · exact G.trans hs ht hu h h'

theorem le_subst (hs : s.Over G.sig) (ht : t.Over G.sig) (hθ : ∀ v, (θ v).Over G.sig)
    (h : G.le s t) : G.le (s.subst θ) (t.subst θ) := by
  rcases h with rfl | h
  · exact le_refl _
  · exact .inr (G.subst ht hs hθ h)

theorem le_arg {f : Head} {pre post : List Term} (hs : (Term.app f (pre ++ s :: post)).Over G.sig)
    (ht : (Term.app f (pre ++ t :: post)).Over G.sig) (h : G.le s t) :
    G.le (.app f (pre ++ s :: post)) (.app f (pre ++ t :: post)) := by
  rcases h with rfl | h
  · exact le_refl _
  · exact .inr (G.arg ht hs h)

theorem le_antisymm (strict : G.strict) (hs : s.Over G.sig) (ht : t.Over G.sig) (h : G.le s t)
    (h' : G.le t s) : s = t := by
  rcases h with rfl | h
  · rfl
  · rcases h' with rfl | h'
    · rfl
    · exact absurd (G.trans hs ht hs h' h) (G.irrefl strict hs)

/-- What goes down goes up nowhere. -/
theorem not_gt_of_gt (strict : G.strict) (hs : s.Over G.sig) (ht : t.Over G.sig)
    (hθ : ∀ v, (θ v).Over G.sig) (h : G.gt s t) : ¬ G.gt (t.subst θ) (s.subst θ) := by
  intro up
  have hsθ := hs.subst fun v _ => hθ v
  have htθ := ht.subst fun v _ => hθ v
  exact G.irrefl strict hsθ (G.trans hsθ htθ hsθ (G.subst hs ht hθ h) up)

theorem gt_replaceAt {p : Position} (ht : t.Over G.sig) (hu : u.Over G.sig)
    (at_ : t.subtermAt p = some s) (h : G.gt s u) : G.gt t (Term.replaceAt u t p) := by
  induction p generalizing t with
  | nil =>
      rw [Term.subtermAt_nil, Option.some.injEq] at at_
      rw [Term.replaceAt_nil, at_]
      exact h
  | cons i p ih =>
      obtain ⟨f, args, a, rfl, ha, hs⟩ := Term.subtermAt_cons_eq_some at_
      obtain ⟨hi, rfl⟩ := List.getElem?_eq_some_iff.1 ha
      have deeper := ih ((Term.over_app_iff.1 ht).2 _ (List.getElem_mem hi)) hs
      have split : args = args.take i ++ args[i] :: args.drop (i + 1) := by simp
      have after := ht.replaceAt (p := i :: p) hu
      rw [Term.replaceAt_cons ha, List.set_eq_take_append_cons_drop, if_pos hi] at after ⊢
      rw [split] at ht
      have down := G.arg ht after deeper
      rwa [← split] at down

theorem Under.refl (h : s.Over G.sig) : G.Under s s := ⟨h, le_refl s⟩

theorem Under.trans (hs : s.Over G.sig) (h : G.Under s t) (h' : G.Under t u) : G.Under s u :=
  ⟨h'.1, le_trans h'.1 h.1 hs h'.2 h.2⟩

theorem Below.under (hw : w.Over G.sig) (h : G.Below w s) (h' : G.Under s t) : G.Below w t :=
  ⟨h'.1, gt_of_gt_of_le hw h.1 h'.1 h.2 h'.2⟩

theorem Descent.under (h : G.Descent T s t) (hs : s.Over G.sig) : G.Under s t := by
  cases h with
  | refl => exact .refl hs
  | tail _ link => exact link.2.1

theorem Descent.refl (t : Term) : G.Descent T t t := Conv.refl t

theorem Descent.trans (h : G.Descent T s t) (h' : G.Descent T t u) (hs : s.Over G.sig) :
    G.Descent T s u :=
  Conv.trans h (Conv.mono h' (fun _ hz => (h.under hs).trans hs hz) subset_rfl)

theorem Descent.mono (h : G.Descent T s t) (le : T ⊆ T') : G.Descent T' s t :=
  Conv.mono h (fun _ hz => hz) le

theorem Descent.subst (h : G.Descent T s t) (hs : s.Over G.sig) (hθ : ∀ v, (θ v).Over G.sig) :
    G.Descent T (s.subst θ) (t.subst θ) :=
  Conv.subst h fun _ hz => ⟨hz.1.subst fun v _ => hθ v, le_subst hz.1 hs hθ hz.2⟩

theorem over_arg {f : Head} {pre post : List Term} (h : (Term.app f (pre ++ s :: post)).Over G.sig)
    (ht : t.Over G.sig) : (Term.app f (pre ++ t :: post)).Over G.sig := by
  have parts := Term.over_app_iff.1 h
  refine .app (by simpa using parts.1) fun a ha => ?_
  rcases List.mem_append.1 ha with ha | ha
  · exact parts.2 a (by simp [ha])
  · rcases List.mem_cons.1 ha with rfl | ha
    · exact ht
    · exact parts.2 a (by simp [ha])

theorem Under.arg {f : Head} {pre post : List Term} (h : G.Under s t)
    (hs : (Term.app f (pre ++ s :: post)).Over G.sig) :
    G.Under (.app f (pre ++ s :: post)) (.app f (pre ++ t :: post)) :=
  ⟨over_arg hs h.1, le_arg (over_arg hs h.1) hs h.2⟩

theorem Descent.below (h : G.Descent T s t) (hw : w.Over G.sig) (hs : G.Below w s) :
    Conv T (G.Below w) s t :=
  Conv.mono h (fun _ hz => hs.under hw hz) subset_rfl

theorem Within.left {a b : Term} (h : a.Over G.sig) : G.Within a b a := .inl (.refl h)

theorem Within.right {a b : Term} (h : b.Over G.sig) : G.Within a b b := .inr (.refl h)

theorem Within.inSig {a b z : Term} (h : G.Within a b z) : z.Over G.sig := by
  rcases h with h | h
  · exact h.1
  · exact h.1

theorem Bridges.refl (t : Term) : G.Bridges T t t := fun _ _ => .refl _

theorem Bridges.symm (h : G.Bridges T l r) : G.Bridges T r l :=
  fun θ hθ => (h θ hθ).symm.mono (fun _ hz => Or.symm hz) subset_rfl

theorem Bridges.mono (h : G.Bridges T l r) (le : T ⊆ T') : G.Bridges T' l r :=
  fun θ hθ => (h θ hθ).mono (fun _ hz => hz) le

theorem Bridges.subst (h : G.Bridges T l r) (hθ : ∀ v, (θ v).Over G.sig) :
    G.Bridges T (l.subst θ) (r.subst θ) := by
  intro η hη
  rw [Term.subst_subst, Term.subst_subst]
  exact h _ fun v => (hθ v).subst fun w _ => hη w

theorem Bridges.of_mem (h : (l, r) ∈ T) (hl : l.Over G.sig) (hr : r.Over G.sig) :
    G.Bridges T l r := by
  intro θ hθ
  have hlθ := hl.subst fun v _ => hθ v
  have hrθ := hr.subst fun v _ => hθ v
  exact .single (.left hlθ) (.right hrθ) (.inl (.root ⟨l, r, θ, h, rfl, rfl⟩))

/-- Both sides may descend first. -/
theorem Bridges.of_descent {l' r' : Term} (hl : l.Over G.sig) (hr : r.Over G.sig)
    (down : G.Descent T l l') (down' : G.Descent T r r') (h : G.Bridges T l' r') :
    G.Bridges T l r := by
  intro θ hθ
  have hlθ := hl.subst fun v _ => hθ v
  have hrθ := hr.subst fun v _ => hθ v
  have left := down.subst hl hθ
  have right := down'.subst hr hθ
  refine (Conv.mono left (fun z hz => Or.inl hz) subset_rfl).trans (.trans ?_
    (Conv.mono right (fun z hz => Or.inr hz) subset_rfl).symm)
  refine (h θ hθ).mono (fun z hz => ?_) subset_rfl
  exact hz.imp (fun hz => (left.under hlθ).trans hlθ hz) fun hz => (right.under hrθ).trans hrθ hz

theorem Bridges.derives (h : G.Bridges T l r) : Derives T l r := by
  simpa only [Term.subst_self] using (h .var fun v => .var v).derives

theorem Covers.of_subset (fits : G.Fits T) (h : T ⊆ T') : G.Covers T T' :=
  fun l r hT => .of_mem (h hT) (fits l r hT).1 (fits l r hT).2

theorem Covers.refl (fits : G.Fits T) : G.Covers T T := .of_subset fits subset_rfl

theorem Bridges.of_instance (h : G.Bridges T l r) (hl : (l.subst θ).Over G.sig)
    (hr : (r.subst θ).Over G.sig) : G.Bridges T (l.subst θ) (r.subst θ) := by
  obtain ⟨η, hη, sameL, sameR⟩ := exists_over_subst hl hr
  rw [← sameL, ← sameR]
  exact h.subst hη

theorem Covers.inContext (h : G.Covers T T') (link : InContext (Instance T) s t)
    (hs : s.Over G.sig) (ht : t.Over G.sig) : Conv T' (G.Within s t) s t := by
  induction link with
  | root inst =>
      obtain ⟨l, r, θ, hT, rfl, rfl⟩ := inst
      obtain ⟨η, hη, sameL, sameR⟩ := exists_over_subst hs ht
      simpa only [sameL, sameR] using h l r hT η hη
  | @arg s t f pre post _ ih =>
      have hs' := (Term.over_app_iff.1 hs).2 s (by simp)
      have ht' := (Term.over_app_iff.1 ht).2 t (by simp)
      exact (ih hs' ht').arg fun z hz => hz.imp (fun hz => hz.arg hs) fun hz => hz.arg ht

/-- A chain stays below what bounds it when its equations are replaced. -/
theorem Covers.conv (h : G.Covers T T') (chain : Conv T P s t) (inSig : ∀ z, P z → z.Over G.sig)
    (down : ∀ y z, P z → G.Under z y → P y) : Conv T' P s t := by
  induction chain with
  | refl => exact .refl s
  | @tail b c _ link ih =>
      obtain ⟨hb, hc, link⟩ := link
      have bridge : Conv T' (G.Within b c) b c := by
        rcases link with link | link
        · exact h.inContext link (inSig b hb) (inSig c hc)
        · exact (h.inContext link (inSig c hc) (inSig b hb)).symm.mono (fun z hz => hz.symm) subset_rfl
      refine ih.trans (bridge.mono (fun z hz => ?_) subset_rfl)
      rcases hz with hz | hz
      · exact down z b hb hz
      · exact down z c hc hz

theorem Bridges.cover (h : G.Bridges T l r) (cover : G.Covers T T') (hl : l.Over G.sig)
    (hr : r.Over G.sig) : G.Bridges T' l r := by
  intro θ hθ
  have hlθ := hl.subst fun v _ => hθ v
  have hrθ := hr.subst fun v _ => hθ v
  refine cover.conv (h θ hθ) (fun z hz => hz.inSig) fun y z hz hy => ?_
  exact hz.imp (fun hz => hz.trans hlθ hy) fun hz => hz.trans hrθ hy

theorem Covers.trans (h : G.Covers T T') (h' : G.Covers T' T'') (fits : G.Fits T) :
    G.Covers T T'' :=
  fun l r hT => (h l r hT).cover h' (fits l r hT).1 (fits l r hT).2

theorem Covers.below (h : G.Covers T T') (hw : w.Over G.sig) (chain : Conv T (G.Below w) s t) :
    Conv T' (G.Below w) s t :=
  h.conv chain (fun _ hz => hz.1) fun _ _ hz hy => hz.under hw hy

/-- The right side of the outer equation may descend. -/
theorem Connects.descendOuter {gd ab : Term × Term} (h : G.Connects T gd ab) (hg : gd.1.Over G.sig)
    (hd : gd.2.Over G.sig) (rule : G.gt gd.1 gd.2) (down : G.Descent T gd.2 t) :
    G.Connects T (gd.1, t) ab := by
  intro p u ρ τ hρ hτ at_ app same _ down'
  have hgρ := hg.subst fun v _ => hρ v
  have below : G.Below (gd.1.subst ρ) (gd.2.subst ρ) := ⟨hd.subst fun v _ => hρ v, G.subst hg hd hρ rule⟩
  exact ((down.subst hd hρ).below hgρ below).symm.trans (h p u ρ τ hρ hτ at_ app same below.2 down')

/-- The right side of the inner equation may descend. -/
theorem Connects.descendInner {gd ab : Term × Term} (h : G.Connects T gd ab) (hg : gd.1.Over G.sig)
    (ha : ab.1.Over G.sig) (hb : ab.2.Over G.sig) (rule : G.gt ab.1 ab.2)
    (down : G.Descent T ab.2 t) : G.Connects T gd (ab.1, t) := by
  intro p u ρ τ hρ hτ at_ app same outer _
  have hgρ := hg.subst fun v _ => hρ v
  have haτ := ha.subst fun v _ => hτ v
  have hbτ := hb.subst fun v _ => hτ v
  have inner := G.subst ha hb hτ rule
  have chain := h p u ρ τ hρ hτ at_ app same outer inner
  refine chain.trans (Conv.replaceAt (down.subst hb hτ) fun z hz => ?_)
  have smaller := gt_of_gt_of_le haτ hbτ hz.1 inner hz.2
  exact ⟨hgρ.replaceAt hz.1, gt_replaceAt hgρ hz.1 (Term.subtermAt_subst at_) (same ▸ smaller)⟩

theorem Connects.cover {gd ab : Term × Term} (h : G.Connects T gd ab) (cover : G.Covers T T')
    (hg : gd.1.Over G.sig) : G.Connects T' gd ab :=
  fun p u ρ τ hρ hτ at_ app same down down' =>
    cover.below (hg.subst fun v _ => hρ v) (h p u ρ τ hρ hτ at_ app same down down')

end
end Gauge
end OrderedCompletion
