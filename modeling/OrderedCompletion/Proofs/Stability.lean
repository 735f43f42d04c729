import OrderedCompletion.Proofs.Kbo
import OrderedCompletion.Proofs.Simplification

/-! When the answers of the Knuth-Bendix order hold of all instances. -/

namespace OrderedCompletion

namespace Store

variable {s : Store}

theorem app_exact {f : Head} {args : List Ref} {ts : List Term} (wf : s.WellFormed) (counted : s.Exact)
    (h : s.DenotesAll args ts) (small : (Term.app f ts).size < 2 ^ 32) : (app f args s).2.Exact := by
  apply intern_exact (.app f args) wf counted
  · intro a ha
    obtain ⟨t, -, hd⟩ := exists_of_forall₂_left h ha
    exact hd.1
  · change ((app f args s).2.term (app f args s).1).size < 2 ^ 32
    rwa [(app_spec wf h).2.2.2]

mutual
/-- Interning a term that is not too large leaves the node counts right. -/
theorem ofTerm_exact {s : Store} {t : Term} (wf : s.WellFormed) (counted : s.Exact) (ht : t.Over .full)
    (small : t.size < 2 ^ 32) : (ofTerm t s).2.Exact := by
  cases t with
  | var v =>
      apply intern_exact (.var v) wf counted trivial
      change ((var v s).2.term (var v s).1).size < 2 ^ 32
      rwa [(var_spec wf v).2.2.2]
  | app f args =>
      have inSig := (Term.over_app_iff.1 ht).2
      obtain ⟨wf₁, -, denotes⟩ := ofTerms_spec wf inSig
      have counted₁ := ofTerms_exact wf counted inSig fun t ht => (Term.size_lt_of_mem ht).trans small
      rw [ofTerm]
      exact app_exact wf₁ counted₁ denotes small
  | missing r => exact absurd ht Term.not_over_missing

theorem ofTerms_exact {s : Store} {ts : List Term} (wf : s.WellFormed) (counted : s.Exact)
    (hts : ∀ t ∈ ts, t.Over .full) (small : ∀ t ∈ ts, t.size < 2 ^ 32) : (ofTerms ts s).2.Exact := by
  cases ts with
  | nil => exact counted
  | cons t ts =>
      have wf₁ := (ofTerm_spec wf (hts t List.mem_cons_self)).1
      have counted₁ := ofTerm_exact wf counted (hts t List.mem_cons_self) (small t List.mem_cons_self)
      rw [ofTerms]
      exact ofTerms_exact wf₁ counted₁ (fun u hu => hts u (List.mem_cons_of_mem _ hu))
        fun u hu => small u (List.mem_cons_of_mem _ hu)
end

end Store

theorem Kbo.test_spec {cmp : HeadComparison} {sig : Signature} {s t : Term} (refl : cmp.Reflexive sig)
    (hs : s.Over sig) (ht : t.Over sig) (smallS : s.size < 2 ^ 32) (smallT : t.size < 2 ^ 32) :
    (Order.ofKind cmp .kbo).test s t = true ↔ s.Covers t ∧ Gt cmp (fun _ _ => True) s t := by
  obtain ⟨wf₁, le₁, means₁⟩ := Store.ofTerm_spec Store.empty_wellFormed hs.full
  have counted₁ := Store.ofTerm_exact Store.empty_wellFormed Store.empty_exact hs.full smallS
  have counted₂ := Store.ofTerm_exact wf₁ counted₁ ht.full smallT
  obtain ⟨wf, -, means⟩ := Equation.ofTerms_spec Store.empty_wellFormed hs.full ht.full
  have spec := (greater_spec refl wf means.1.1 means.2.1).2.2.2 counted₂ (means.1.2 ▸ hs)
  rwa [means.1.2, means.2.2] at spec

theorem Kbo.test_iff {cmp : HeadComparison} {sig : Signature} {s t : Term} (lawful : cmp.Lawful sig)
    (hs : s.Over sig) (ht : t.Over sig) (smallS : s.size < 2 ^ 32) (smallT : t.size < 2 ^ 32) :
    (Order.ofKind cmp .kbo).test s t = true ↔ s.Covers t ∧ Gt cmp (fun _ _ => True) s t :=
  test_spec lawful.reflexive hs ht smallS smallT

namespace Order

variable {symbols : SymbolTable} {ranked : List Symbol} {s t : Term} {θ : Var → Term}

/-- What the order answers about two terms it answers about all their instances, if the variable condition
holds of all terms that it takes to compare them. -/
theorem kbo_subst (hs : s.Over (.interned symbols)) (ht : t.Over (.interned symbols))
    (hθ : ∀ v ∈ s.vars, (θ v).Over (.interned symbols)) (smallS : (s.subst θ).size < 2 ^ 32)
    (smallT : (t.subst θ).size < 2 ^ 32) (greater : (kbo symbols ranked).test s t = true)
    (nested : ∀ a b, Kbo.Compares (Precedence.compare symbols (.ranking ranked)) s t a b → a.Covers b) :
    (kbo symbols ranked).test (s.subst θ) (t.subst θ) = true := by
  have lawful := Precedence.lawful symbols ranked
  obtain ⟨covered, down⟩ := (Kbo.test_iff lawful hs ht (Term.size_le_size_subst.trans_lt smallS)
    (Term.size_le_size_subst.trans_lt smallT)).1 greater
  have inSigS := hs.subst hθ
  have inSigT := ht.subst fun v hv => hθ v (covered.mem_vars hv)
  have down' := (down.of_compares lawful hs nested).subst hθ
  rw [kbo, Kbo.test_iff lawful inSigS inSigT smallS smallT]
  exact ⟨down'.covers, down'.of_compares lawful inSigS fun _ _ _ => trivial⟩

/-- A table with five names, the last of them the greatest. -/
def fiveNames : SymbolTable := ⟨["c", "f", "g", "p", "q"], by decide⟩

def leaf : Term := .app (.symbol ⟨0⟩) []

def fork (s t : Term) : Term := .app (.symbol ⟨1⟩) [s, t]

def low (t : Term) : Term := .app (.symbol ⟨2⟩) [t]

def high (t : Term) : Term := .app (.symbol ⟨3⟩) [t]

/-- Puts in a term of two nodes for the second variable. -/
def second (v : Var) : Term := if v = 1 then low leaf else .var v

theorem fork_over (hs : s.Over (.interned fiveNames)) (ht : t.Over (.interned fiveNames)) :
    (fork s t).Over (.interned fiveNames) := by
  refine .app rfl fun a ha => ?_
  rcases List.mem_pair.1 ha with rfl | rfl
  · exact hs
  · exact ht

theorem low_over (h : t.Over (.interned fiveNames)) : (low t).Over (.interned fiveNames) :=
  .app rfl fun _ ha => List.mem_singleton.1 ha ▸ h

theorem high_over (h : t.Over (.interned fiveNames)) : (high t).Over (.interned fiveNames) :=
  .app rfl fun _ ha => List.mem_singleton.1 ha ▸ h

theorem second_over (v : Var) : (second v).Over (.interned fiveNames) := by
  rw [second]
  split
  · exact low_over (.app rfl nofun)
  · exact .var v

theorem kbo_subst_fork :
    (kbo fiveNames []).test (fork (high (.var 0)) (.var 1)) (fork (low (.var 0)) (.var 1)) = true ∧
    (kbo fiveNames []).test ((fork (high (.var 0)) (.var 1)).subst second)
      ((fork (low (.var 0)) (.var 1)).subst second) = true := by
  have greater : (kbo fiveNames []).test (fork (high (.var 0)) (.var 1)) (fork (low (.var 0)) (.var 1)) =
      true := by decide +kernel
  refine ⟨greater, kbo_subst (fork_over (high_over (.var 0)) (.var 1)) (fork_over (low_over (.var 0)) (.var 1))
    (fun v _ => second_over v) (by decide) (by decide) greater ?_⟩
  -- the terms themselves are compared, and then their first arguments
  have inner : ∀ a b, Kbo.Compares (Precedence.compare fiveNames (.ranking [])) (high (.var 0))
      (low (.var 0)) a b → a.Covers b := by
    intro a b h
    generalize left : high (.var 0) = x, right : low (.var 0) = y at h
    cases h with
    | here =>
        subst left right
        exact fun _ => le_rfl
    | inside _ equal _ _ =>
        obtain ⟨rfl, length⟩ := Term.app.inj left
        obtain ⟨rfl, length'⟩ := Term.app.inj right
        rw [← length, ← length'] at equal
        exact absurd equal (by decide)
  intro a b h
  generalize left : fork (high (.var 0)) (.var 1) = x, right : fork (low (.var 0)) (.var 1) = y at h
  cases h with
  | here =>
      subst left right
      exact fun _ => le_rfl
  | @inside f g pre post post' c d _ _ _ _ _ rest =>
      obtain ⟨-, args⟩ := Term.app.inj left
      obtain ⟨-, args'⟩ := Term.app.inj right
      cases pre with
      | nil =>
          obtain ⟨rfl, -⟩ := List.cons.inj args
          obtain ⟨rfl, -⟩ := List.cons.inj args'
          exact inner a b rest
      | cons e pre =>
          obtain ⟨rfl, -⟩ := List.cons.inj args
          exact absurd (List.cons.inj args').1 (by decide)

/-- Arguments are compared without the variable condition, and so an instance may be compared the other way
round. -/
theorem kbo_unstable :
    (kbo fiveNames []).test (fork (high (.var 0)) (.var 1)) (fork (low (.var 1)) (.var 0)) = true ∧
    (kbo fiveNames []).test ((fork (high (.var 0)) (.var 1)).subst second)
      ((fork (low (.var 1)) (.var 0)).subst second) = false ∧
    (kbo fiveNames []).test ((fork (low (.var 1)) (.var 0)).subst second)
      ((fork (high (.var 0)) (.var 1)).subst second) = true := by
  decide +kernel

end Order
end OrderedCompletion
