import Mathlib.Data.Set.Basic
import OrderedCompletion.Proofs.Interning

/-! Notes about references that a store did not know when it was asked about them. They say that there are
no variables and that freezing changes nothing, and they stay when the references get terms. They are right if
the terms are ground, and then nothing that is done with the store depends on them. -/

namespace OrderedCompletion

namespace Store

variable {early more : Set Ref} {s s' s₀ s₁ s₂ : Store} {r q a : Ref} {t : Term} {v : Var} {vs : List Var}
variable {f : Head} {args : List Ref}

/-- No subterm with variables has a reference that was asked about early. -/
def Clear (s : Store) (early : Set Ref) (r : Ref) : Prop :=
  ∀ p q, s.subtermAt r p = some q → q ∈ early → (s.term q).IsGround

theorem Clear.isGround (h : s.Clear early r) (asked : r ∈ early) : (s.term r).IsGround := h [] r rfl asked

theorem Clear.arg (h : s.Clear early r) (hnode : s.node? r = some (.app f args)) (ha : a ∈ args) :
    s.Clear early a := by
  obtain ⟨i, hi⟩ := List.mem_iff_getElem?.1 ha
  intro p q found asked
  exact h (i :: p) q (subtermAt_cons_eq_some_iff.2 ⟨f, args, a, hnode, hi, found⟩) asked

theorem Clear.mono (h : s.Clear more r) (sub : early ⊆ more) : s.Clear early r :=
  fun p q found asked => h p q found (sub asked)

theorem clear_nothing : s.Clear ∅ r := fun _ _ _ asked => absurd asked (Set.notMem_empty _)

theorem clear_of_le (wf : s.WellFormed) (wf' : s'.WellFormed) (le : s ≤ s') (hr : r < s.size) :
    s'.Clear early r ↔ s.Clear early r := by
  refine forall_congr' fun p => forall_congr' fun q => ?_
  rw [subtermAt_of_le wf.below le hr]
  refine imp_congr_right fun found => ?_
  rw [wf.below.term_of_le wf'.below le (subtermAt_lt_size wf hr found)]

/-- The store has the terms of `s₀`, and what it notes about variables and freezing is right for terms that are
clear. What it notes about unfreezing is right. -/
structure Reliable (early : Set Ref) (s₀ s : Store) : Prop where
  same : SameTerms s₀ s
  noted : ∀ {r : Ref} {vs : List Var}, s.varsOf[r]? = some vs →
    r ∈ early ∧ vs = [] ∨ r < s₀.size ∧ (s₀.Clear early r → vs = (s₀.term r).vars)
  frozen : ∀ {r q : Ref}, s.frozenOf[r]? = some q →
    r ∈ early ∧ q = r ∨ r < s₀.size ∧ (s₀.Clear early r → s₀.Denotes q (s₀.term r).freeze)
  thawed : ∀ {r q : Ref}, s.thawedOf[r]? = some q →
    r < s₀.size ∧ ∃ t, (s₀.term r).unfreeze = .ok t ∧ s₀.Denotes q t

theorem Faithful.reliable (h : s.Faithful) : Reliable early s s where
  same := .refl s
  noted := fun known => .inr ⟨(h.noted known).1, fun _ => (h.noted known).2⟩
  frozen := fun known => .inr ⟨(h.frozen known).1, fun _ => (h.frozen known).2⟩
  thawed := h.thawed

/-- If nothing was asked early, all notes are right. -/
theorem Reliable.faithful (h : Reliable ∅ s₀ s) (wf : s₀.WellFormed) : s.Faithful where
  toWellFormed := by
    refine h.same.wellFormed wf fun known => ?_
    obtain ⟨asked, -⟩ | ⟨lt, right⟩ := h.noted known
    · exact absurd asked (Set.notMem_empty _)
    · exact ⟨lt, right clear_nothing⟩
  frozen := by
    intro r q known
    rw [h.same.size, h.same.term, h.same.denotes]
    obtain ⟨asked, -⟩ | ⟨lt, right⟩ := h.frozen known
    · exact absurd asked (Set.notMem_empty _)
    · exact ⟨lt, right clear_nothing⟩
  thawed := by
    intro r q known
    simp only [h.same.size, h.same.term, h.same.denotes]
    exact h.thawed known

theorem Reliable.mono (h : Reliable early s₀ s) (sub : early ⊆ more) : Reliable more s₀ s where
  same := h.same
  noted := fun known => (h.noted known).imp (fun old => ⟨sub old.1, old.2⟩)
    fun old => ⟨old.1, fun clear => old.2 (clear.mono sub)⟩
  frozen := fun known => (h.frozen known).imp (fun old => ⟨sub old.1, old.2⟩)
    fun old => ⟨old.1, fun clear => old.2 (clear.mono sub)⟩
  thawed := h.thawed

/-- New terms do not make a note unreliable. One about a term that is only known now was made early. -/
theorem Reliable.later (h : Reliable early s₀ s) (wf₀ : s₀.WellFormed) (wf₁ : s₁.WellFormed) (le : s₀ ≤ s₁)
    (same : SameTerms s₁ s') (noted : s'.varsOf = s.varsOf) (frozen : s'.frozenOf = s.frozenOf)
    (thawed : s'.thawedOf = s.thawedOf) : Reliable early s₁ s' where
  same := same
  noted := by
    intro r vs known
    rw [noted] at known
    refine (h.noted known).imp_right fun old => ⟨Nat.lt_of_lt_of_le old.1 (size_le_of_le le), fun clear => ?_⟩
    rw [wf₀.below.term_of_le wf₁.below le old.1]
    exact old.2 ((clear_of_le wf₀ wf₁ le old.1).1 clear)
  frozen := by
    intro r q known
    rw [frozen] at known
    refine (h.frozen known).imp_right fun old => ⟨Nat.lt_of_lt_of_le old.1 (size_le_of_le le), fun clear => ?_⟩
    rw [wf₀.below.term_of_le wf₁.below le old.1]
    exact (old.2 ((clear_of_le wf₀ wf₁ le old.1).1 clear)).mono wf₀ wf₁ le
  thawed := by
    intro r q known
    rw [thawed] at known
    obtain ⟨lt, t, right, hq⟩ := h.thawed known
    rw [wf₀.below.term_of_le wf₁.below le lt]
    exact ⟨Nat.lt_of_lt_of_le lt (size_le_of_le le), t, right, hq.mono wf₀ wf₁ le⟩

theorem SameTerms.subtermAt (same : SameTerms s s') (r : Ref) (p : Position) :
    s'.subtermAt r p = s.subtermAt r p := by
  induction p generalizing r with
  | nil => rfl
  | cons i p ih =>
      rw [Store.subtermAt, Store.subtermAt, same.node?]
      split
      · split
        · exact ih _
        · rfl
      · rfl
      · rfl

theorem SameTerms.clear (same : SameTerms s s') : s'.Clear early r ↔ s.Clear early r := by
  simp only [Clear, same.subtermAt, same.term]

/-- What is reliable for the terms of one store is reliable for those of another one that has the same. -/
theorem Reliable.rebase (h : Reliable early s₀ s) (same : SameTerms s₀ s₁) : Reliable early s₁ s where
  same := ⟨h.same.1.trans same.1.symm, h.same.2.trans same.2.symm⟩
  noted := by
    intro r vs known
    rw [same.size, same.term, same.clear]
    exact h.noted known
  frozen := by
    intro r q known
    rw [same.size, same.term, same.clear, same.denotes]
    exact h.frozen known
  thawed := by
    intro r q known
    simp only [same.size, same.term, same.denotes]
    exact h.thawed known

theorem Reliable.noteVars (h : Reliable early s₀ s)
    (right : r ∈ early ∧ vs = [] ∨ r < s₀.size ∧ (s₀.Clear early r → vs = (s₀.term r).vars)) :
    Reliable early s₀ { s with varsOf := s.varsOf.insert r vs } where
  same := h.same
  noted := by
    intro r' vs' known
    rw [Std.TreeMap.getElem?_insert] at known
    split at known
    · rename_i here
      rw [Std.LawfulEqCmp.compare_eq_iff_eq] at here
      cases known
      exact here ▸ right
    · exact h.noted known
  frozen := h.frozen
  thawed := h.thawed

theorem Reliable.noteFrozen (h : Reliable early s₀ s)
    (right : r ∈ early ∧ q = r ∨ r < s₀.size ∧ (s₀.Clear early r → s₀.Denotes q (s₀.term r).freeze)) :
    Reliable early s₀ { s with frozenOf := s.frozenOf.insert r q } where
  same := h.same
  noted := h.noted
  frozen := by
    intro r' q' known
    rw [Std.TreeMap.getElem?_insert] at known
    split at known
    · rename_i here
      rw [Std.LawfulEqCmp.compare_eq_iff_eq] at here
      cases known
      exact here ▸ right
    · exact h.frozen known
  thawed := h.thawed

theorem Reliable.noteThawed (h : Reliable early s₀ s) (hr : r < s₀.size) (right : (s₀.term r).unfreeze = .ok t)
    (hq : s₀.Denotes q t) : Reliable early s₀ { s with thawedOf := s.thawedOf.insert r q } where
  same := h.same
  noted := h.noted
  frozen := h.frozen
  thawed := by
    intro r' q' known
    rw [Std.TreeMap.getElem?_insert] at known
    split at known
    · rename_i here
      rw [Std.LawfulEqCmp.compare_eq_iff_eq] at here
      cases known
      exact here ▸ ⟨hr, t, right, hq⟩
    · exact h.thawed known

section
variable {α β : Type} {x : StoreM α} {g : α → StoreM β} {b : α} {Q Q' : α → Prop} {R : β → Prop}

/-- In all stores with the terms of `s₀` and reliable notes the answer has the property, and the terms become
those of `s₁`. -/
def Gives (early : Set Ref) (s₀ : Store) (x : StoreM α) (Q : α → Prop) (s₁ : Store) : Prop :=
  ∀ s, Reliable early s₀ s → Q (x s).1 ∧ Reliable early s₁ (x s).2

theorem Gives.pure (h : Q b) : Gives early s₀ (Pure.pure b) Q s₀ := fun _ hs => ⟨h, hs⟩

theorem Gives.mono (hx : Gives early s₀ x Q s₁) (h : ∀ a, Q a → Q' a) : Gives early s₀ x Q' s₁ :=
  fun s hs => ⟨h _ (hx s hs).1, (hx s hs).2⟩

theorem Gives.bind (hx : Gives early s₀ x Q s₁) (hg : ∀ a, Q a → Gives early s₁ (g a) R s₂) :
    Gives early s₀ (x >>= g) R s₂ :=
  fun s hs => hg _ (hx s hs).1 _ (hx s hs).2

theorem Gives.bindGet {g : Store → StoreM β} (h : ∀ s, Reliable early s₀ s → Gives early s₀ (g s) R s₁) :
    Gives early s₀ (MonadState.get >>= g) R s₁ :=
  fun s hs => h s hs s hs

theorem Gives.mapM {as : List α} {P : α → β → Prop} (h : ∀ a ∈ as, Gives early s₀ (g a) (P a) s₀) :
    Gives early s₀ (as.mapM g) (List.Forall₂ P as) s₀ := by
  induction as with
  | nil => exact .pure .nil
  | cons a as ih =>
      rw [List.mapM_cons]
      refine (h a List.mem_cons_self).bind fun b hb => ?_
      exact (ih fun c hc => h c (List.mem_cons_of_mem a hc)).bind fun bs hbs => .pure (.cons hb hbs)

end

theorem term_unknown (h : s.size ≤ r) : s.term r = .missing r := by
  rw [term, bound, termWithin, node?_eq_none.2 h]

/-- The variables of a term are answered right if it is clear. What is not known has none, and that is noted. -/
theorem varsWithin_gives {n : Nat} (wf : s₀.WellFormed) (deep : r < s₀.size → r < n)
    (asked : s₀.size ≤ r → r ∈ early) :
    Gives early s₀ (varsWithin n r) (fun vs => s₀.Clear early r → vs = (s₀.term r).vars) s₀ := by
  induction n generalizing r with
  | zero =>
      have unknown : s₀.size ≤ r := Nat.le_of_not_lt fun hr => Nat.not_lt_zero r (deep hr)
      refine .pure fun _ => ?_
      rw [term_unknown unknown, Term.vars_missing]
  | succ n ih =>
      rw [varsWithin]
      refine .bindGet fun s hs => ?_
      split
      · rename_i vs known
        refine .pure fun clear => ?_
        obtain ⟨asked, rfl⟩ | ⟨-, right⟩ := hs.noted known
        · exact (clear.isGround asked).symm
        · exact right clear
      · refine .bindGet fun s hs => ?_
        extract_lets note
        have noted : ∀ vs, r < s₀.size → (s₀.Clear early r → vs = (s₀.term r).vars) →
            Gives early s₀ (note vs) (fun vs => s₀.Clear early r → vs = (s₀.term r).vars) s₀ :=
          fun vs hr right s hs => ⟨right, hs.noteVars (.inr ⟨hr, right⟩)⟩
        rw [hs.same.node?]
        by_cases hr : r < s₀.size
        · obtain ⟨node, hnode⟩ := exists_node hr
          rw [hnode]
          cases node with
          | var v =>
              refine noted [v] hr fun _ => ?_
              rw [wf.below.term_var hnode]
              rfl
          | app f args =>
              have parts : ∀ a ∈ args, Gives early s₀ (varsWithin n a)
                  (fun vs => s₀.Clear early a → vs = (s₀.term a).vars) s₀ := by
                intro a ha
                have lt := wf.below hnode a ha
                refine ih ?_ ?_
                · exact fun _ => Nat.lt_of_lt_of_le lt (Nat.le_of_lt_succ (deep hr))
                · exact fun unknown => absurd (Nat.lt_trans lt hr) (Nat.not_lt_of_le unknown)
              refine (Gives.mapM parts).bind fun vss right => noted _ hr fun clear => ?_
              have all : List.Forall₂ (fun a vs => vs = (s₀.term a).vars) args vss :=
                ((List.forall₂_and_left args vss).2 ⟨fun a => clear.arg hnode, right⟩).imp
                  fun a vs both => both.2 both.1
              rw [eq_map_of_forall₂ all, wf.below.term_app hnode, Term.vars, Term.varsList_eq_flatten, List.map_map]
              rfl
        · have unknown := Nat.le_of_not_lt hr
          rw [node?_eq_none.2 unknown]
          refine fun s hs => ⟨fun _ => ?_, hs.noteVars (.inl ⟨asked unknown, rfl⟩)⟩
          rw [term_unknown unknown, Term.vars_missing]
          rfl

section
variable (wf : s₀.WellFormed) (asked : s₀.size ≤ r → r ∈ early)
include wf asked

theorem vars_gives : Gives early s₀ (vars r) (fun vs => s₀.Clear early r → vs = (s₀.term r).vars) s₀ := by
  refine .bindGet fun s hs => ?_
  rw [bound, hs.same.size]
  exact varsWithin_gives wf Nat.lt_succ_of_lt asked

theorem isGround_gives :
    Gives early s₀ (isGround r) (fun b => s₀.Clear early r → b = (s₀.term r).vars.isEmpty) s₀ :=
  (vars_gives wf asked).bind fun _ right => .pure fun clear => congrArg List.isEmpty (right clear)

theorem occurs_gives :
    Gives early s₀ (occurs v r) (fun b => s₀.Clear early r → b = (s₀.term r).vars.contains v) s₀ :=
  (vars_gives wf asked).bind fun _ right => .pure fun clear => congrArg (List.contains · v) (right clear)

end

theorem SameTerms.pushed (same : SameTerms s s') (node : Node) : SameTerms (s.pushed node) (s'.pushed node) := by
  have count : s'.nodeSize node = s.nodeSize node := by
    cases node with
    | var v => rfl
    | app f args => rw [nodeSize, nodeSize, same.1]
  refine ⟨?_, ?_⟩
  · rw [Store.pushed, Store.pushed, count, same.1]
  · rw [Store.pushed, Store.pushed, same.2, same.size]

/-- What enters a store does not depend on notes. -/
theorem intern_gives (wf : s₀.WellFormed) {node : Node} (admits : s₀.Admits node) :
    Gives early s₀ (intern node) (· = (intern node s₀).1) (intern node s₀).2 := by
  intro s hs
  cases found : s₀.refs.find? node with
  | some r =>
      have run₀ : intern node s₀ = (r, s₀) := by rw [intern, found]
      have run : intern node s = (r, s) := by rw [intern, hs.same.2, found]
      rw [run₀, run]
      exact ⟨rfl, hs⟩
  | none =>
      have found' : s.refs.find? node = none := hs.same.2 ▸ found
      have run₀ : intern node s₀ = (s₀.size, s₀.pushed node) := by rw [intern, found]; rfl
      have run : intern node s = (s.size, s.pushed node) := by rw [intern, found']; rfl
      rw [run₀, run]
      exact ⟨hs.same.size, hs.later wf (pushed_wellFormed wf found admits) (le_pushed node)
        (hs.same.pushed node) rfl rfl rfl⟩

end Store
end OrderedCompletion
