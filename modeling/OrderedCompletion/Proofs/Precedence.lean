import Mathlib.Data.Finset.Card
import Mathlib.Data.Prod.Lex
import OrderedCompletion.Proofs.Lexicographic
import OrderedCompletion.Proofs.Symbols

/-! Precedences compare heads lawfully. -/

namespace OrderedCompletion

/-- Symbols of a table with any number of arguments, and rigid variables without arguments. -/
def Signature.interned (symbols : SymbolTable) : Signature
  | .symbol f, _ => (symbols.name? f).isSome
  | .frozen _, n => n = 0

/-- Symbols of a table with any number of arguments. -/
def Signature.named (symbols : SymbolTable) : Signature
  | .symbol f, _ => (symbols.name? f).isSome
  | .frozen _, _ => False

theorem Signature.interned_of_named {symbols : SymbolTable} {f : Head} {n : Nat}
    (h : named symbols f n) : interned symbols f n := by
  cases f with
  | symbol f => exact h
  | frozen v => exact h.elim

/-- Fewer heads are compared as lawfully. -/
theorem HeadComparison.Lawful.mono {cmp : HeadComparison} {sig sig' : Signature} (h : cmp.Lawful sig)
    (le : ∀ f n, sig' f n → sig f n) : cmp.Lawful sig' where
  eq_iff := fun hf hg => h.eq_iff (le _ _ hf) (le _ _ hg)
  trans := fun hf hg hk => h.trans (le _ _ hf) (le _ _ hg) (le _ _ hk)
  wf := Subrelation.wf (fun ⟨hx, hy, greater⟩ => ⟨le _ _ hx, le _ _ hy, greater⟩) h.wf

namespace Precedence

open Std

/-- Ranks symbols from greatest to least. -/
def ranking (ranked : List Symbol) : Precedence := ⟨ranksOf ranked⟩

variable {symbols : SymbolTable} {ranked : List Symbol} {f g h : Symbol} {a b c : String} {m n k : Nat}

/-- A symbol that is ranked again further on has its rank from there. -/
theorem rank?_ranking_cons : (ranking (g :: ranked)).rank? f =
    ((ranking ranked).rank? f).or (if f = g then some (ranked.length + 1) else none) := by
  by_cases same : f = g
  · simp [ranking, rank?, ranksOf, List.lookup_append, same]
  · simp [ranking, rank?, ranksOf, List.lookup_append, List.lookup_cons, beq_false_of_ne same, same]

/-- So a rank comes from further on or is the greatest of all. -/
theorem rank?_ranking_cons_cases {rank : Nat} (hf : (ranking (g :: ranked)).rank? f = some rank) :
    (ranking ranked).rank? f = some rank ∨ f = g ∧ rank = ranked.length + 1 := by
  rw [rank?_ranking_cons, Option.or_eq_some_iff] at hf
  refine hf.imp_right ?_
  rintro ⟨-, top⟩
  split at top
  · rename_i same
    exact ⟨same, (Option.some.inj top).symm⟩
  · cases top

theorem rank?_ranking_le {rank : Nat} (hf : (ranking ranked).rank? f = some rank) :
    rank ≤ ranked.length := by
  induction ranked with
  | nil => simp [ranking, rank?, ranksOf] at hf
  | cons g ranked ih =>
      rw [List.length_cons]
      rcases rank?_ranking_cons_cases hf with later | ⟨-, top⟩
      · have bound := ih later
        omega
      · omega

/-- Different symbols have different ranks. -/
theorem eq_of_rank? {rank : Nat} (hf : (ranking ranked).rank? f = some rank)
    (hg : (ranking ranked).rank? g = some rank) : f = g := by
  induction ranked with
  | nil => simp [ranking, rank?, ranksOf] at hf
  | cons first ranked ih =>
      rcases rank?_ranking_cons_cases hf with hf | ⟨rfl, top⟩
      · rcases rank?_ranking_cons_cases hg with hg | ⟨-, top⟩
        · exact ih hf hg
        · have bound := rank?_ranking_le hf
          omega
      · rcases rank?_ranking_cons_cases hg with hg | ⟨rfl, -⟩
        · have bound := rank?_ranking_le hg
          omega
        · rfl

/-- What decides a comparison: the rank, which is zero for a symbol without rank, the name, and the number
of arguments. -/
def key (p : Precedence) (f : Symbol) (name : String) (n : Nat) : Nat × String × Nat :=
  ((p.rank? f).elim 0 (· + 1), name, n)

def compareKeys : Nat × String × Nat → Nat × String × Nat → Ordering :=
  compareLex (compareOn (·.1)) (compareLex (compareOn (·.2.1)) (compareOn (·.2.2)))

instance : TransCmp compareKeys := inferInstanceAs (TransCmp (compareLex _ (compareLex _ _)))

theorem compareKeys_eq_iff {x y : Nat × String × Nat} : compareKeys x y = .eq ↔ x = y := by
  obtain ⟨rank, name, n⟩ := x
  obtain ⟨rank', name', n'⟩ := y
  simp [compareKeys, compareLex_eq_eq, compareOn]

theorem compareKeys_of_ne {x y : Nat × String × Nat} (differ : x.1 ≠ y.1) :
    compareKeys x y = Ord.compare x.1 y.1 := by
  rw [compareKeys, compareLex, compareOn]
  cases first : Ord.compare x.1 y.1 with
  | eq => exact absurd (LawfulEqCmp.compare_eq_iff_eq.1 first) differ
  | lt => rfl
  | gt => rfl

/-- Two symbols of a table are compared by their keys. -/
theorem compare_symbol (hf : symbols.name? f = some a) (hg : symbols.name? g = some b) :
    compare symbols (ranking ranked) (.symbol f) m (.symbol g) n =
      some (compareKeys ((ranking ranked).key f a m) ((ranking ranked).key g b n)) := by
  rw [compare]
  by_cases same : f = g
  · subst same
    obtain rfl : a = b := Option.some.inj (hf.symm.trans hg)
    simp [compareKeys, compareLex, compareOn, key]
  · rw [if_neg same, hf, hg]
    cases rankF : (ranking ranked).rank? f with
    | none =>
        cases rankG : (ranking ranked).rank? g with
        | none => simp [compareKeys, compareLex, compareOn, key, rankF, rankG, compareNames]
        | some j =>
            rw [compareKeys_of_ne (by simp [key, rankF, rankG])]
            simp only [key, rankF, rankG, Option.elim, Nat.compare_eq_lt.2 (Nat.succ_pos j)]
    | some i =>
        cases rankG : (ranking ranked).rank? g with
        | none =>
            rw [compareKeys_of_ne (by simp [key, rankF, rankG])]
            simp only [key, rankF, rankG, Option.elim, Nat.compare_eq_gt.2 (Nat.succ_pos i)]
        | some j =>
            have differ : i ≠ j := by
              rintro rfl
              exact same (eq_of_rank? rankF rankG)
            rw [compareKeys_of_ne (by simp [key, rankF, rankG, differ])]
            simp [key, rankF, rankG, Nat.compare_eq_ite_lt]

/-- The other way round the answer is the opposite one. -/
theorem compare_symbol_swap (hf : symbols.name? f = some a) (hg : symbols.name? g = some b) :
    compare symbols (ranking ranked) (.symbol g) n (.symbol f) m =
      (compare symbols (ranking ranked) (.symbol f) m (.symbol g) n).map .swap := by
  rw [compare_symbol hf hg, compare_symbol hg hf, Option.map_some, ← OrientedCmp.eq_swap]

theorem exists_name (hf : Signature.interned symbols (.symbol f) n) : ∃ a, symbols.name? f = some a :=
  Option.isSome_iff_exists.1 hf

/-- The numbers of arguments do not matter if the symbols differ. -/
theorem compare_symbol_of_ne (differ : f ≠ g) (hf : symbols.name? f = some a)
    (hg : symbols.name? g = some b) :
    compare symbols (ranking ranked) (.symbol f) m (.symbol g) n =
      compare symbols (ranking ranked) (.symbol f) 0 (.symbol g) 0 := by
  have names : a ≠ b := by
    rintro rfl
    exact differ (SymbolTable.eq_of_name hf hg)
  rw [compare_symbol hf hg, compare_symbol hf hg, compareKeys, compareLex, compareLex, compareLex,
    compareLex]
  cases second : Ord.compare a b with
  | eq => exact absurd (LawfulEqCmp.compare_eq_iff_eq.1 second) names
  | lt => simp [compareOn, key, second]
  | gt => simp [compareOn, key, second]

/-- Only symbols are greater than a head. -/
theorem symbols_of_compare_gt {x y : Head}
    (h : compare symbols (ranking ranked) x m y n = some .gt) :
    ∃ f g, x = .symbol f ∧ y = .symbol g := by
  cases x with
  | frozen v =>
      cases y with
      | frozen w =>
          rw [compare] at h
          split at h
          · cases h
          · cases h
      | symbol g => cases h
  | symbol f =>
      cases y with
      | frozen w => cases h
      | symbol g => exact ⟨f, g, rfl, rfl⟩

theorem compare_trans {x y z : Head} (hx : Signature.interned symbols x m)
    (hy : Signature.interned symbols y n) (hz : Signature.interned symbols z k)
    (first : compare symbols (ranking ranked) x m y n = some .gt)
    (second : compare symbols (ranking ranked) y n z k = some .gt) :
    compare symbols (ranking ranked) x m z k = some .gt := by
  obtain ⟨f, g, rfl, rfl⟩ := symbols_of_compare_gt first
  obtain ⟨_, h, same, rfl⟩ := symbols_of_compare_gt second
  obtain ⟨a, hf⟩ := exists_name hx
  obtain ⟨b, hg⟩ := exists_name hy
  obtain ⟨c, hh⟩ := exists_name hz
  rw [compare_symbol hf hg, Option.some.injEq] at first
  rw [compare_symbol hg hh, Option.some.injEq] at second
  rw [compare_symbol hf hh, TransCmp.gt_trans first second]

theorem compare_eq_iff {x y : Head} (hx : Signature.interned symbols x m)
    (hy : Signature.interned symbols y n) :
    compare symbols (ranking ranked) x m y n = some .eq ↔ x = y ∧ m = n := by
  cases x with
  | frozen v =>
      cases y with
      | frozen w =>
          obtain rfl : m = 0 := hx
          obtain rfl : n = 0 := hy
          simp [compare]
      | symbol g => simp [compare]
  | symbol f =>
      cases y with
      | frozen w => simp [compare]
      | symbol g =>
          obtain ⟨a, hf⟩ := exists_name hx
          obtain ⟨b, hg⟩ := exists_name hy
          rw [compare_symbol hf hg, Option.some.injEq, compareKeys_eq_iff, key, key, Prod.mk.injEq,
            Prod.mk.injEq, Head.symbol.injEq]
          constructor
          · rintro ⟨-, rfl, same⟩
            exact ⟨SymbolTable.eq_of_name hf hg, same⟩
          · rintro ⟨rfl, same⟩
            exact ⟨rfl, Option.some.inj (hf.symm.trans hg), same⟩

/-- How many symbols of the table are smaller. -/
def place (symbols : SymbolTable) (p : Precedence) (f : Symbol) : Nat :=
  ((Finset.range symbols.size).filter fun i =>
    compare symbols p (.symbol f) 0 (.symbol ⟨i⟩) 0 = some .gt).card

theorem place_lt (hf : symbols.name? f = some a) (hg : symbols.name? g = some b)
    (greater : compare symbols (ranking ranked) (.symbol f) 0 (.symbol g) 0 = some .gt) :
    place symbols (ranking ranked) g < place symbols (ranking ranked) f := by
  apply Finset.card_lt_card
  rw [Finset.ssubset_iff_of_subset]
  · refine ⟨g.index, ?_, ?_⟩
    · rw [Finset.mem_filter, Finset.mem_range]
      exact ⟨SymbolTable.index_lt_size hg, greater⟩
    · rw [Finset.mem_filter, not_and]
      intro _
      simp [compare]
  · intro i hi
    rw [Finset.mem_filter, Finset.mem_range] at hi ⊢
    obtain ⟨known, smaller⟩ := hi
    have hi : Signature.interned symbols (.symbol ⟨i⟩) 0 := by
      simpa [Signature.interned, SymbolTable.name?, SymbolTable.size] using known
    exact ⟨known, compare_trans (by simp [Signature.interned, hf]) (by simp [Signature.interned, hg]) hi
      greater smaller⟩

/-- Heads are compared lawfully: by their places, and a symbol with itself by the number of arguments. -/
theorem lawful (symbols : SymbolTable) (ranked : List Symbol) :
    HeadComparison.Lawful (compare symbols (ranking ranked)) (.interned symbols) where
  eq_iff := compare_eq_iff
  trans := compare_trans
  wf := by
    let measure : Head × Nat → Nat ×ₗ Nat
      | (.symbol f, n) => toLex (place symbols (ranking ranked) f, n)
      | (.frozen _, n) => toLex (0, n)
    refine Subrelation.wf ?_ (InvImage.wf measure wellFounded_lt)
    rintro ⟨y, n⟩ ⟨x, m⟩ ⟨hy, hx, greater⟩
    obtain ⟨f, g, rfl, rfl⟩ := symbols_of_compare_gt greater
    obtain ⟨a, hf⟩ := exists_name hx
    obtain ⟨b, hg⟩ := exists_name hy
    change toLex (place _ _ g, n) < toLex (place _ _ f, m)
    rw [Prod.Lex.toLex_lt_toLex]
    by_cases same : f = g
    · subst same
      right
      rw [compare, if_pos rfl, Option.some.injEq, Nat.compare_eq_gt] at greater
      exact ⟨rfl, greater⟩
    · left
      rw [compare_symbol_of_ne same hf hg] at greater
      exact place_lt hf hg greater

theorem total (symbols : SymbolTable) (ranked : List Symbol) :
    HeadComparison.Total (compare symbols (ranking ranked)) (.named symbols) where
  some := by
    intro x y m n hx hy
    cases x with
    | frozen v => exact hx.elim
    | symbol f =>
        cases y with
        | frozen w => exact hy.elim
        | symbol g =>
            obtain ⟨a, hf⟩ := exists_name (Signature.interned_of_named hx)
            obtain ⟨b, hg⟩ := exists_name (Signature.interned_of_named hy)
            exact ⟨_, compare_symbol hf hg⟩
  swap := by
    intro x y m n hx hy less
    cases x with
    | frozen v => exact hx.elim
    | symbol f =>
        cases y with
        | frozen w => exact hy.elim
        | symbol g =>
            obtain ⟨a, hf⟩ := exists_name (Signature.interned_of_named hx)
            obtain ⟨b, hg⟩ := exists_name (Signature.interned_of_named hy)
            rw [compare_symbol_swap hf hg, less]
            rfl

end Precedence
end OrderedCompletion
