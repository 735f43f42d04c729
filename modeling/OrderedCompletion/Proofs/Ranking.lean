import Mathlib.Data.List.Induction
import OrderedCompletion.Proofs.Precedence

/-! Orders are set one after the other, over a table that others put names into as well. The one that was set
last decides, and all symbols of the table are totally ordered. -/

namespace OrderedCompletion

/-- The index of an element that does not occur after it. -/
def LastAt {α : Type} (as : List α) (a : α) (i : Nat) : Prop :=
  as[i]? = some a ∧ ∀ j, i < j → as[j]? ≠ some a

section
variable {α : Type} {as : List α} {a b : α} {i j : Nat}

theorem LastAt.index_eq (h : LastAt as a i) (h' : LastAt as a j) : i = j := by
  apply Nat.le_antisymm
  · exact Nat.le_of_not_lt fun lt => h'.2 i lt h.1
  · exact Nat.le_of_not_lt fun lt => h.2 j lt h'.1

theorem LastAt.lt_length (h : LastAt as a i) : i < as.length := by
  obtain ⟨lt, -⟩ := List.getElem?_eq_some_iff.1 h.1
  exact lt

theorem lastAt_cons_zero : LastAt (b :: as) a 0 ↔ b = a ∧ a ∉ as := by
  simp only [LastAt, List.getElem?_cons_zero, Option.some.injEq, List.mem_iff_getElem?, not_exists]
  refine and_congr_right fun _ => ⟨fun later j => later (j + 1) (Nat.succ_pos j), fun none j positive => ?_⟩
  obtain ⟨k, rfl⟩ := Nat.exists_eq_succ_of_ne_zero (Nat.ne_of_gt positive)
  exact none k

theorem lastAt_cons_succ : LastAt (b :: as) a (i + 1) ↔ LastAt as a i := by
  simp only [LastAt, List.getElem?_cons_succ]
  refine and_congr_right fun _ => ⟨fun later j lt => later (j + 1) (Nat.succ_lt_succ lt), fun later j lt => ?_⟩
  obtain ⟨k, rfl⟩ := Nat.exists_eq_succ_of_ne_zero (Nat.ne_zero_of_lt lt)
  exact later k (Nat.lt_of_succ_lt_succ lt)

end

namespace Precedence

variable {ranked : List Symbol} {f g : Symbol} {i j : Nat}

theorem rank?_eq_none_iff : (ranking ranked).rank? f = none ↔ f ∉ ranked := by
  induction ranked with
  | nil => simp [ranking, rank?, ranksOf]
  | cons g ranked ih => simp [rank?_ranking_cons, ih, and_comm]

/-- A rank is a place from the end. -/
theorem rank?_of_lastAt (h : LastAt ranked f i) : (ranking ranked).rank? f = some (ranked.length - i) := by
  induction ranked generalizing i with
  | nil => simp [LastAt] at h
  | cons g ranked ih =>
      rw [rank?_ranking_cons]
      cases i with
      | zero =>
          obtain ⟨rfl, last⟩ := lastAt_cons_zero.1 h
          simp [rank?_eq_none_iff.2 last]
      | succ i =>
          rw [ih (lastAt_cons_succ.1 h), Option.some_or, List.length_cons, Nat.add_sub_add_right]

variable {symbols : SymbolTable} {m n : Nat}

/-- A ranked symbol is greater than one without rank. -/
theorem compare_listed (hf : f ∈ ranked) (hg : g ∉ ranked) :
    compare symbols (ranking ranked) (.symbol f) m (.symbol g) n = some .gt := by
  have differ : f ≠ g := by
    rintro rfl
    exact hg hf
  cases rankF : (ranking ranked).rank? f with
  | none => exact absurd hf (rank?_eq_none_iff.1 rankF)
  | some i => rw [compare, if_neg differ, rankF, rank?_eq_none_iff.2 hg]

/-- Of two ranked symbols the one that comes last earlier is greater. -/
theorem compare_lastAt (hf : LastAt ranked f i) (hg : LastAt ranked g j) (lt : i < j) :
    compare symbols (ranking ranked) (.symbol f) m (.symbol g) n = some .gt := by
  have differ : f ≠ g := by
    rintro rfl
    exact absurd (hf.index_eq hg) (Nat.ne_of_lt lt)
  have inside := hg.lt_length
  rw [compare, if_neg differ, rank?_of_lastAt hf, rank?_of_lastAt hg]
  simp only [Option.some.injEq, Nat.compare_eq_gt]
  omega

/-- A rigid variable can be compared with itself only, whatever numbers of arguments are given. -/
theorem compare_rigid {p : Precedence} {v : Var} {h : Head} :
    compare symbols p (.frozen v) m h n = (if h = .frozen v then some .eq else none) ∧
    compare symbols p h n (.frozen v) m = (if h = .frozen v then some .eq else none) := by
  cases h with
  | symbol f => simp [compare]
  | frozen w => simp [compare, eq_comm]

/-- The comparison is a total order on the symbols of a table with their numbers of arguments. Those with a
name from the list come first, by the last places of their names. -/
structure Orders (cmp : HeadComparison) (symbols : SymbolTable) (names : List String) : Prop where
  defined : ∀ {f g a b}, symbols.name? f = some a → symbols.name? g = some b →
    ∀ m n, ∃ o, cmp (.symbol f) m (.symbol g) n = some o
  eq_iff : ∀ {f g a b}, symbols.name? f = some a → symbols.name? g = some b →
    ∀ m n, cmp (.symbol f) m (.symbol g) n = some .eq ↔ f = g ∧ m = n
  swap : ∀ {f g a b}, symbols.name? f = some a → symbols.name? g = some b →
    ∀ m n, cmp (.symbol g) n (.symbol f) m = (cmp (.symbol f) m (.symbol g) n).map .swap
  trans : ∀ {f g h a b c}, symbols.name? f = some a → symbols.name? g = some b → symbols.name? h = some c →
    ∀ m n k, cmp (.symbol f) m (.symbol g) n = some .gt → cmp (.symbol g) n (.symbol h) k = some .gt →
      cmp (.symbol f) m (.symbol h) k = some .gt
  known : ∀ a ∈ names, ∃ f, symbols.name? f = some a
  listed : ∀ {f g a b}, symbols.name? f = some a → symbols.name? g = some b → a ∈ names → b ∉ names →
    ∀ m n, cmp (.symbol f) m (.symbol g) n = some .gt
  places : ∀ {f g a b i j}, symbols.name? f = some a → symbols.name? g = some b → LastAt names a i →
    LastAt names b j → i < j → ∀ m n, cmp (.symbol f) m (.symbol g) n = some .gt
  rigid : ∀ v h m n, cmp (.frozen v) m h n = (if h = .frozen v then some .eq else none) ∧
    cmp h n (.frozen v) m = (if h = .frozen v then some .eq else none)

/-- A precedence and the table that it goes by. -/
structure Scale where
  precedence : Precedence := .empty
  symbols : SymbolTable := .empty

/-- What is done to them: an order is set, or a name enters the table for any other reason. -/
inductive Change where
  | setOrder (greatestFirst : List String)
  | intern (name : String)

def Change.apply : Change → Scale → Scale
  | .setOrder names, s =>
    let (precedence, symbols) := ofNames names s.symbols
    { precedence, symbols }
  | .intern name, s => { s with symbols := (s.symbols.intern name).2 }

def Change.order? : Change → Option (List String)
  | .setOrder names => some names
  | .intern _ => none

/-- The order that was set last, without names if none was set. -/
def lastOrder (changes : List Change) : List String := (changes.filterMap Change.order?).getLastD []

namespace Scale

def after (s : Scale) (changes : List Change) : Scale := changes.foldl (fun s change => change.apply s) s

/-- The symbols with these names are ranked, and no others. -/
def Ranks (s : Scale) (names : List String) : Prop :=
  ∃ ranked, s.precedence = ranking ranked ∧ ranked.map s.symbols.name? = names.map some

variable {s : Scale} {names : List String} {f g : Symbol} {a b : String} {i : Nat}

theorem Ranks.step (h : s.Ranks names) (change : Change) :
    (change.apply s).Ranks (change.order?.getD names) := by
  cases change with
  | setOrder names => exact ⟨_, rfl, s.symbols.map_name?_internAll names⟩
  | intern name =>
      obtain ⟨ranked, precedence, same⟩ := h
      refine ⟨ranked, precedence, ?_⟩
      -- symbols keep their names
      rw [Change.order?, Option.getD_none, ← same]
      apply List.map_congr_left
      intro f hf
      have named : s.symbols.name? f ∈ names.map some := same ▸ List.mem_map_of_mem hf
      obtain ⟨a, -, ha⟩ := List.mem_map.1 named
      rw [← ha]
      exact SymbolTable.name?_of_prefix (s.symbols.intern_grows name).1 ha.symm

theorem lastOrder_append_singleton (changes : List Change) (change : Change) :
    lastOrder (changes ++ [change]) = change.order?.getD (lastOrder changes) := by
  cases change with
  | setOrder names => simp [lastOrder, Change.order?]
  | intern name => simp [lastOrder, Change.order?]

theorem ranks_after (symbols : SymbolTable) (changes : List Change) :
    (Scale.after { symbols } changes).Ranks (lastOrder changes) := by
  induction changes using List.reverseRecOn with
  | nil => exact ⟨[], rfl, rfl⟩
  | append_singleton changes change ih =>
      rw [after, List.foldl_append, lastOrder_append_singleton]
      exact ih.step change

/-- A symbol stands among the ranked ones where its name stands among the names. -/
theorem getElem?_iff {ranked : List Symbol} (same : ranked.map s.symbols.name? = names.map some)
    (hf : s.symbols.name? f = some a) : ranked[i]? = some f ↔ names[i]? = some a := by
  have at_ := congrArg (fun list => list[i]?) same
  simp only [List.getElem?_map] at at_
  constructor
  · intro here
    simpa [here, hf] using at_.symm
  · intro here
    rw [here, Option.map_some, Option.map_eq_some_iff] at at_
    obtain ⟨g, there, hg⟩ := at_
    rw [there, SymbolTable.eq_of_name hg hf]

theorem Ranks.orders (h : s.Ranks names) : Orders (compare s.symbols s.precedence) s.symbols names := by
  obtain ⟨ranked, precedence, same⟩ := h
  rw [precedence]
  have known : ∀ {f a} (n : Nat), s.symbols.name? f = some a → Signature.interned s.symbols (.symbol f) n :=
    fun n hf => Option.isSome_iff_exists.2 ⟨_, hf⟩
  have mem_iff : ∀ {f a}, s.symbols.name? f = some a → (f ∈ ranked ↔ a ∈ names) := by
    intro f a hf
    simp only [List.mem_iff_getElem?, getElem?_iff same hf]
  have lastAt_iff : ∀ {f a i}, s.symbols.name? f = some a → (LastAt ranked f i ↔ LastAt names a i) := by
    intro f a i hf
    simp only [LastAt, ne_eq, getElem?_iff same hf]
  have lawful := lawful s.symbols ranked
  constructor
  case defined => exact fun hf hg m n => ⟨_, compare_symbol hf hg⟩
  case eq_iff =>
    intro f g a b hf hg m n
    rw [lawful.eq_iff (known m hf) (known n hg), Head.symbol.injEq]
  case swap => exact fun hf hg m n => compare_symbol_swap hf hg
  case trans => exact fun hf hg hh m n k => lawful.trans (known m hf) (known n hg) (known k hh)
  case known =>
    intro a ha
    have named : some a ∈ ranked.map s.symbols.name? := same ▸ List.mem_map_of_mem ha
    obtain ⟨f, -, hf⟩ := List.mem_map.1 named
    exact ⟨f, hf⟩
  case listed =>
    intro f g a b hf hg ha hb m n
    exact compare_listed ((mem_iff hf).2 ha) (hb ∘ (mem_iff hg).1)
  case places =>
    intro f g a b i j hf hg ha hb lt m n
    exact compare_lastAt ((lastAt_iff hf).2 ha) ((lastAt_iff hg).2 hb) lt
  case rigid => exact fun v h m n => compare_rigid

/-- However often orders are set, and whatever names enter the table besides, all heads of the table are
totally ordered, first the names of the order that was set last. -/
theorem totally_ordered (symbols : SymbolTable) (changes : List Change) :
    Orders (compare (Scale.after { symbols } changes).symbols (Scale.after { symbols } changes).precedence)
      (Scale.after { symbols } changes).symbols (lastOrder changes) :=
  (ranks_after symbols changes).orders

/-- A repeated name counts at its last place, and a name that is ranked no more goes by its letters. -/
example :
    let s := Scale.after {} [.setOrder ["z", "c"], .intern "d", .setOrder ["a", "b", "a"]]
    let cmp := fun f g => compare s.symbols s.precedence (.symbol ⟨f⟩) 1 (.symbol ⟨g⟩) 2
    s.symbols.names = ["z", "c", "d", "a", "b"] ∧ cmp 4 3 = some .gt ∧ cmp 3 0 = some .gt ∧
      cmp 0 2 = some .gt ∧ cmp 2 1 = some .gt ∧ cmp 1 1 = some .lt := by
  decide +kernel

end Scale
end Precedence
end OrderedCompletion
