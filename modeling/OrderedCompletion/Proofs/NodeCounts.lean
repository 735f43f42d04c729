import Mathlib.Algebra.BigOperators.Fin
import Mathlib.Data.Finset.Sigma
import OrderedCompletion.Proofs.FrozenOrders

/-! What the stored node counts count: the positions of the tree, in which a part that is shared counts as
often as it occurs. -/

namespace OrderedCompletion

namespace Term

variable {t : Term} {p : Position}

/-- The position in an application of a position in one of its arguments. -/
def inArgument {n : Nat} : (Σ _ : Fin n, Position) ↪ Position where
  toFun at_ := at_.1.1 :: at_.2
  inj' := by
    rintro ⟨i, p⟩ ⟨j, q⟩ same
    obtain ⟨index, rest⟩ := List.cons.inj same
    exact Sigma.ext (Fin.ext index) (heq_of_eq rest)

@[simp] theorem inArgument_mk {n : Nat} {i : Fin n} : inArgument ⟨i, p⟩ = i.1 :: p := rfl

theorem isSome_subtermAt_app {f : Head} {args : List Term} :
    ((app f args).subtermAt p).isSome ↔
      p = [] ∨ ∃ (i : Fin args.length) (q : Position), (args[i].subtermAt q).isSome ∧ inArgument ⟨i, q⟩ = p := by
  cases p with
  | nil => simp
  | cons i p =>
      cases ha : args[i]? with
      | none =>
          have out := List.getElem?_eq_none_iff.1 ha
          simp only [subtermAt, ha, Option.isSome_none, Bool.false_eq_true, reduceCtorEq, inArgument_mk,
            List.cons.injEq, false_or, false_iff]
          rintro ⟨j, q, -, rfl, -⟩
          exact absurd j.2 (Nat.not_lt.2 out)
      | some a =>
          obtain ⟨lt, rfl⟩ := List.getElem?_eq_some_iff.1 ha
          rw [subtermAt_cons ha]
          simp only [reduceCtorEq, inArgument_mk, List.cons.injEq, false_or]
          constructor
          · exact fun here => ⟨⟨i, lt⟩, p, here, rfl, rfl⟩
          · rintro ⟨j, q, here, rfl, rfl⟩
            exact here

/-- A term has as many positions as nodes. -/
theorem exists_positions : ∃ places : Finset Position,
    (∀ p, p ∈ places ↔ (t.subtermAt p).isSome) ∧ places.card = t.size := by
  induction t using Term.induct with
  | var v =>
      refine ⟨{[]}, fun p => ?_, rfl⟩
      cases p <;> simp [subtermAt]
  | missing r =>
      refine ⟨{[]}, fun p => ?_, rfl⟩
      cases p <;> simp [subtermAt]
  | app f args ih =>
      choose inside mem card using fun i : Fin args.length => ih args[i] (List.getElem_mem i.2)
      have root : [] ∉ (Finset.univ.sigma inside).map inArgument := by simp
      refine ⟨Finset.cons [] ((Finset.univ.sigma inside).map inArgument) root, fun p => ?_, ?_⟩
      · rw [Finset.mem_cons, Finset.mem_map, isSome_subtermAt_app]
        simp only [Finset.mem_sigma, Finset.mem_univ, true_and, mem, Sigma.exists]
      · rw [Finset.card_cons, Finset.card_map, Finset.card_sigma, size_app, ← Fin.sum_univ_fun_getElem]
        simp only [card]
        rfl

end Term

namespace Store

variable {s : Store} {r : Ref}

theorem Evolves.counted (before : Evolves .empty s) : s.Counted :=
  empty_counted.grown before.grown (empty_faithful.evolves before).1.below

/-- Of every term that a store has come to keep, the stored node count is the number of positions in its
tree, as far as it fits into a word. -/
theorem sizeOf_counts_positions (before : Evolves .empty s) (hr : r < s.size) :
    ∃ places : Finset Position, (∀ p, p ∈ places ↔ ((s.term r).subtermAt p).isSome) ∧
      (s.sizeOf r).toNat = places.card % 2 ^ 32 := by
  obtain ⟨places, mem, card⟩ := (s.term r).exists_positions
  exact ⟨places, mem, card ▸ before.counted.2 r hr⟩

/-- A variable, and applications to two copies of the term before. -/
def doubled : Nat → Store
  | 0 => (var 7 .empty).2
  | n + 1 => (app (.symbol ⟨0⟩) [n, n] (doubled n)).2

theorem doubled_node : ∀ n < 32, (doubled n).size = n + 1 ∧
    (doubled 32).node? (n + 1) = some (.app (.symbol ⟨0⟩) [n, n]) := by
  decide +kernel

theorem evolves_doubled {n : Nat} (small : n ≤ 32) : Evolves .empty (doubled n) := by
  induction n with
  | zero => exact .single ⟨.var 7, .inl nofun, rfl⟩
  | succ n ih =>
      refine (ih (Nat.le_of_lt small)).tail ⟨.app (.symbol ⟨0⟩) [n, n], .inl ?_, rfl⟩
      intro r hr
      rw [(doubled_node n small).1, List.eq_of_mem_replicate (n := 2) hr]
      exact Nat.lt_succ_self n

theorem doubled_size {n : Nat} (small : n ≤ 32) : ((doubled 32).term n).size + 1 = 2 ^ (n + 1) := by
  have below := (empty_faithful.evolves (evolves_doubled le_rfl)).1.below
  induction n with
  | zero =>
      have here : (doubled 32).node? 0 = some (.var 7) := by decide +kernel
      rw [below.term_var here]
      rfl
  | succ n ih =>
      have part := ih (Nat.le_of_lt small)
      rw [below.term_app (doubled_node n small).2, Term.size_app]
      simp only [List.map_cons, List.map_nil, List.sum_cons, List.sum_nil]
      omega

/-- Thirty-three entries stand for a tree whose positions a word cannot count. -/
theorem sizeOf_counts_positions_doubled :
    Evolves .empty (doubled 32) ∧ 32 < (doubled 32).size ∧ ((doubled 32).term 32).size + 1 = 2 ^ 33 ∧
    ((doubled 32).sizeOf 32).toNat = 2 ^ 32 - 1 ∧
    ∃ places : Finset Position, (∀ p, p ∈ places ↔ (((doubled 32).term 32).subtermAt p).isSome) ∧
      ((doubled 32).sizeOf 32).toNat = places.card % 2 ^ 32 := by
  have before := evolves_doubled le_rfl
  have known : 32 < (doubled 32).size := by decide +kernel
  have wrapped : ((doubled 32).sizeOf 32).toNat = 2 ^ 32 - 1 := by decide +kernel
  exact ⟨before, known, doubled_size le_rfl, wrapped, sizeOf_counts_positions before known⟩

end Store
end OrderedCompletion
