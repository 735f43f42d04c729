import Mathlib.Data.Set.Basic
import OrderedCompletion.Proofs.Terms

/-! Equational logic, its steps in context, and chains of steps whose terms have a property. -/

namespace OrderedCompletion

/-- A set of equations between terms. -/
abbrev Theory := Set (Term × Term)

/-- Derivability in equational logic. -/
inductive Derives (T : Theory) : Term → Term → Prop
  | equation {l r : Term} (θ : Var → Term) : (l, r) ∈ T → Derives T (l.subst θ) (r.subst θ)
  | refl (t : Term) : Derives T t t
  | symm {s t : Term} : Derives T s t → Derives T t s
  | trans {s t u : Term} : Derives T s t → Derives T t u → Derives T s u
  | arg {s t : Term} (f : Head) (pre post : List Term) : Derives T s t →
      Derives T (.app f (pre ++ s :: post)) (.app f (pre ++ t :: post))

/-- The closure of a relation under contexts. -/
inductive InContext (root : Term → Term → Prop) : Term → Term → Prop
  | root {s t : Term} : root s t → InContext root s t
  | arg {s t : Term} (f : Head) (pre post : List Term) : InContext root s t →
      InContext root (.app f (pre ++ s :: post)) (.app f (pre ++ t :: post))

/-- Both terms are the sides of an equation under one substitution. -/
def Instance (T : Theory) (s t : Term) : Prop :=
  ∃ l r θ, (l, r) ∈ T ∧ l.subst θ = s ∧ r.subst θ = t

/-- One use of an equation, in either direction. -/
def Link (T : Theory) (s t : Term) : Prop :=
  InContext (Instance T) s t ∨ InContext (Instance T) t s

/-- A chain of uses of equations all terms of which have a property. -/
def Conv (T : Theory) (P : Term → Prop) : Term → Term → Prop :=
  Relation.ReflTransGen fun s t => P s ∧ P t ∧ Link T s t

section
variable {T T' : Theory} {P Q : Term → Prop} {s t u : Term} {θ : Var → Term}
variable {f : Head} {pre post : List Term}

theorem Derives.of_mem (h : (s, t) ∈ T) : Derives T s t := by
  simpa using Derives.equation .var h

theorem Derives.subst (h : Derives T s t) (θ : Var → Term) :
    Derives T (s.subst θ) (t.subst θ) := by
  induction h with
  | equation η h =>
      rw [Term.subst_subst, Term.subst_subst]
      exact .equation _ h
  | refl t => exact .refl _
  | symm _ ih => exact .symm ih
  | trans _ _ ih ih' => exact .trans ih ih'
  | arg f pre post _ ih =>
      simp only [Term.subst_app, List.map_append, List.map_cons]
      exact .arg f _ _ ih

/-- Equations may be replaced by others that derive them. -/
theorem Derives.cut (h : Derives T s t) (derived : ∀ l r, (l, r) ∈ T → Derives T' l r) :
    Derives T' s t := by
  induction h with
  | equation θ h => exact (derived _ _ h).subst θ
  | refl t => exact .refl t
  | symm _ ih => exact .symm ih
  | trans _ _ ih ih' => exact .trans ih ih'
  | arg f pre post _ ih => exact .arg f pre post ih

theorem Derives.mono (h : Derives T s t) (le : T ⊆ T') : Derives T' s t :=
  h.cut fun _ _ hT => .of_mem (le hT)

theorem Derives.replaceAt {w : Term} {p : Position} (h : Derives T s t) :
    Derives T (Term.replaceAt s w p) (Term.replaceAt t w p) := by
  induction p generalizing w with
  | nil => simpa using h
  | cons i p ih =>
      cases w with
      | var v => exact .refl _
      | missing r => exact .refl _
      | app f args =>
          cases ha : args[i]? with
          | none =>
              rw [Term.replaceAt, Term.replaceAt, ha]
              exact .refl _
          | some a =>
              obtain ⟨hi, -⟩ := List.getElem?_eq_some_iff.1 ha
              rw [Term.replaceAt_cons ha, Term.replaceAt_cons ha, List.set_eq_take_append_cons_drop,
                List.set_eq_take_append_cons_drop, if_pos hi, if_pos hi]
              exact .arg f _ _ ih

theorem Instance.derives (h : Instance T s t) : Derives T s t := by
  obtain ⟨l, r, θ, hT, rfl, rfl⟩ := h
  exact .equation θ hT

theorem Instance.mono (h : Instance T s t) (le : T ⊆ T') : Instance T' s t := by
  obtain ⟨l, r, θ, hT, same⟩ := h
  exact ⟨l, r, θ, le hT, same⟩

theorem Instance.subst (h : Instance T s t) (η : Var → Term) :
    Instance T (s.subst η) (t.subst η) := by
  obtain ⟨l, r, θ, hT, rfl, rfl⟩ := h
  exact ⟨l, r, _, hT, Term.subst_subst.symm, Term.subst_subst.symm⟩

theorem InContext.mono {root root' : Term → Term → Prop} (h : InContext root s t)
    (le : ∀ s t, root s t → root' s t) : InContext root' s t := by
  induction h with
  | root h => exact .root (le _ _ h)
  | arg f pre post _ ih => exact .arg f pre post ih

theorem InContext.subst {root : Term → Term → Prop} (h : InContext root s t)
    (stable : ∀ s t, root s t → root (s.subst θ) (t.subst θ)) :
    InContext root (s.subst θ) (t.subst θ) := by
  induction h with
  | root h => exact .root (stable _ _ h)
  | arg f pre post _ ih =>
      simp only [Term.subst_app, List.map_append, List.map_cons]
      exact .arg f _ _ ih

theorem InContext.derives (h : InContext (Instance T) s t) : Derives T s t := by
  induction h with
  | root h => exact h.derives
  | arg f pre post _ ih => exact .arg f pre post ih

theorem Link.symm (h : Link T s t) : Link T t s := Or.symm h

theorem Link.arg (f : Head) (pre post : List Term) (h : Link T s t) :
    Link T (.app f (pre ++ s :: post)) (.app f (pre ++ t :: post)) :=
  h.imp (.arg f pre post) (.arg f pre post)

theorem Link.mono (h : Link T s t) (le : T ⊆ T') : Link T' s t :=
  h.imp (fun h => h.mono fun _ _ h => h.mono le) (fun h => h.mono fun _ _ h => h.mono le)

theorem Link.derives (h : Link T s t) : Derives T s t := by
  rcases h with h | h
  · exact h.derives
  · exact h.derives.symm

theorem Conv.refl (t : Term) : Conv T P t t := Relation.ReflTransGen.refl

theorem Conv.trans (h : Conv T P s t) (h' : Conv T P t u) : Conv T P s u :=
  Relation.ReflTransGen.trans h h'

theorem Conv.symm (h : Conv T P s t) : Conv T P t s := by
  induction h with
  | refl => exact .refl s
  | tail _ link ih =>
      exact Relation.ReflTransGen.head ⟨link.2.1, link.1, link.2.2.symm⟩ ih

theorem Conv.single (hs : P s) (ht : P t) (h : Link T s t) : Conv T P s t :=
  Relation.ReflTransGen.single ⟨hs, ht, h⟩

theorem Conv.mono (h : Conv T P s t) (hP : ∀ z, P z → Q z) (hT : T ⊆ T') : Conv T' Q s t :=
  Relation.ReflTransGen.mono (fun _ _ h => ⟨hP _ h.1, hP _ h.2.1, h.2.2.mono hT⟩) _ _ h

theorem Conv.arg (h : Conv T P s t) (hP : ∀ z, P z → Q (.app f (pre ++ z :: post))) :
    Conv T Q (.app f (pre ++ s :: post)) (.app f (pre ++ t :: post)) :=
  Relation.ReflTransGen.lift (fun z : Term => Term.app f (pre ++ z :: post))
    (fun _ _ h => ⟨hP _ h.1, hP _ h.2.1, h.2.2.arg f pre post⟩) _ _ h

theorem Conv.subst (h : Conv T P s t) (hP : ∀ z, P z → Q (z.subst θ)) :
    Conv T Q (s.subst θ) (t.subst θ) := by
  refine Relation.ReflTransGen.lift (fun z : Term => z.subst θ) (fun a b h => ?_) _ _ h
  refine ⟨hP _ h.1, hP _ h.2.1, h.2.2.imp ?_ ?_⟩
  · exact fun h => h.subst fun _ _ h => h.subst θ
  · exact fun h => h.subst fun _ _ h => h.subst θ

theorem Conv.replaceAt {w : Term} {p : Position} (h : Conv T P s t)
    (hP : ∀ z, P z → Q (Term.replaceAt z w p)) :
    Conv T Q (Term.replaceAt s w p) (Term.replaceAt t w p) := by
  induction p generalizing w Q with
  | nil =>
      simp only [Term.replaceAt_nil] at hP ⊢
      exact h.mono hP subset_rfl
  | cons i p ih =>
      cases w with
      | var v => exact .refl _
      | missing r => exact .refl _
      | app f args =>
          cases ha : args[i]? with
          | none =>
              rw [Term.replaceAt, Term.replaceAt, ha]
              exact .refl _
          | some a =>
              obtain ⟨hi, -⟩ := List.getElem?_eq_some_iff.1 ha
              simp only [Term.replaceAt_cons ha, List.set_eq_take_append_cons_drop, if_pos hi] at hP ⊢
              exact (ih (w := a) fun z hz => hP z hz).arg (Q := Q) fun z hz => hz

theorem Conv.derives (h : Conv T P s t) : Derives T s t := by
  induction h with
  | refl => exact .refl _
  | tail _ link ih => exact .trans ih link.2.2.derives

theorem Derives.conv (h : Derives T s t) : Conv T (fun _ => True) s t := by
  induction h with
  | equation θ h => exact .single trivial trivial (.inl (.root ⟨_, _, θ, h, rfl, rfl⟩))
  | refl t => exact .refl t
  | symm _ ih => exact ih.symm
  | trans _ _ ih ih' => exact ih.trans ih'
  | arg f pre post _ ih => exact ih.arg fun _ _ => trivial

end

end OrderedCompletion
