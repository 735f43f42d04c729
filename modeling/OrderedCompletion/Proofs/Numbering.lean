import Mathlib.Data.List.Basic
import Mathlib.Data.List.Induction
import OrderedCompletion.Proofs.Grammar
import OrderedCompletion.Proofs.Terms

/-! The terms that written ones are read as: names get numbers in the order in which they first occur. -/

namespace OrderedCompletion

section
variable {α : Type} [BEq α] [LawfulBEq α] {as bs : List α} {a : α}

theorem eraseDups_append_singleton (as : List α) (a : α) :
    (as ++ [a]).eraseDups = if a ∈ as then as.eraseDups else as.eraseDups ++ [a] := by
  rw [List.eraseDups_append]
  by_cases here : a ∈ as
  · simp [here, List.removeAll]
  · simp [here, List.removeAll, List.eraseDups_cons]

theorem eraseDups_grows (as bs : List α) : as.eraseDups <+: (as ++ bs).eraseDups := by
  rw [List.eraseDups_append]
  exact List.prefix_append _ _

/-- What is there already is not added. -/
theorem eraseDups_append_of_subset (h : bs ⊆ as) : (as ++ bs).eraseDups = as.eraseDups := by
  have none : bs.removeAll as = [] := by
    rw [List.removeAll, List.filter_eq_nil_iff]
    intro b hb
    simp [h hb]
  rw [List.eraseDups_append, none, List.eraseDups_nil, List.append_nil]

/-- A list without repetitions stays as it is. -/
theorem eraseDups_of_nodup (h : as.Nodup) : as.eraseDups = as := by
  induction as using List.reverseRecOn with
  | nil => rfl
  | append_singleton as a ih =>
      obtain ⟨left, -, apart⟩ := List.nodup_append.1 h
      have new : a ∉ as := fun ha => apart a ha a (List.mem_singleton.2 rfl) rfl
      rw [eraseDups_append_singleton, if_neg new, ih left]

variable {β : Type} [BEq β] [LawfulBEq β] {f : α → β}

theorem eraseDups_map (inj : f.Injective) (as : List α) : (as.map f).eraseDups = as.eraseDups.map f := by
  induction as using List.reverseRecOn with
  | nil => rfl
  | append_singleton as a ih =>
      rw [List.map_append, List.map_singleton, eraseDups_append_singleton, eraseDups_append_singleton, ih]
      by_cases old : a ∈ as
      · rw [if_pos (List.mem_map_of_mem old), if_pos old]
      · have new : f a ∉ as.map f := by simpa [inj.eq_iff] using old
        rw [if_neg new, if_neg old, List.map_append, List.map_singleton]

theorem idxOf_map (inj : f.Injective) (as : List α) (a : α) : (as.map f).idxOf (f a) = as.idxOf a := by
  induction as with
  | nil => rfl
  | cons b as ih =>
      have same : (f b == f a) = (b == a) := by
        rw [Bool.eq_iff_iff, beq_iff_eq, beq_iff_eq, inj.eq_iff]
      rw [List.map_cons, List.idxOf_cons, List.idxOf_cons, same, ih]

end

namespace Expr

mutual
/-- The names of variables that are written in a term. -/
def varNames : Expr → List String
  | .var name => [name]
  | .app _ args => varNamesList args

def varNamesList : List Expr → List String
  | [] => []
  | e :: es => varNames e ++ varNamesList es
end

mutual
/-- The names of symbols that are written in a term, a head before its arguments. -/
def headNames : Expr → List String
  | .var _ => []
  | .app f args => f :: headNamesList args

def headNamesList : List Expr → List String
  | [] => []
  | e :: es => headNames e ++ headNamesList es
end

mutual
/-- The term that is written, if the names stand at their places in two lists. -/
def build (heads vars : List String) : Expr → Term
  | .var name => .var (vars.idxOf name)
  | .app f args => .app (.symbol ⟨heads.idxOf f⟩) (buildList heads vars args)

def buildList (heads vars : List String) : List Expr → List Term
  | [] => []
  | e :: es => build heads vars e :: buildList heads vars es
end

theorem varNamesList_eq_flatMap {es : List Expr} : varNamesList es = es.flatMap varNames := by
  induction es with
  | nil => rfl
  | cons e es ih => rw [varNamesList, ih, List.flatMap_cons]

theorem headNamesList_eq_flatMap {es : List Expr} : headNamesList es = es.flatMap headNames := by
  induction es with
  | nil => rfl
  | cons e es ih => rw [headNamesList, ih, List.flatMap_cons]

theorem buildList_eq_map {heads vars : List String} {es : List Expr} :
    buildList heads vars es = es.map (build heads vars) := by
  induction es with
  | nil => rfl
  | cons e es ih => rw [buildList, ih, List.map_cons]

variable {scope : Scope} {name : String} {heads vars heads' vars' : List String}

mutual
/-- Names that are added at the end change nothing. -/
theorem build_grown {e : Expr} (h : heads <+: heads') (h' : vars <+: vars') (known : ∀ f ∈ e.headNames, f ∈ heads)
    (known' : ∀ x ∈ e.varNames, x ∈ vars) : e.build heads' vars' = e.build heads vars := by
  cases e with
  | var name =>
      obtain ⟨more, rfl⟩ := h'
      rw [build, build, List.idxOf_append_of_mem (known' name (by simp [varNames]))]
  | app f args =>
      have rest : buildList heads' vars' args = buildList heads vars args :=
        buildList_grown h h' (fun g hg => known g (by simp [headNames, hg])) known'
      obtain ⟨more, rfl⟩ := h
      rw [build, build, List.idxOf_append_of_mem (known f (by simp [headNames])), rest]

theorem buildList_grown {es : List Expr} (h : heads <+: heads') (h' : vars <+: vars')
    (known : ∀ f ∈ headNamesList es, f ∈ heads) (known' : ∀ x ∈ varNamesList es, x ∈ vars) :
    buildList heads' vars' es = buildList heads vars es := by
  cases es with
  | nil => rfl
  | cons e es =>
      rw [buildList, buildList, build_grown h h' (fun f hf => known f (by simp [headNamesList, hf]))
        fun x hx => known' x (by simp [varNamesList, hx]),
        buildList_grown h h' (fun f hf => known f (by simp [headNamesList, hf]))
          fun x hx => known' x (by simp [varNamesList, hx])]
end

/-- The scope holds the names that were met, in the order in which they first occurred. -/
structure Met (heads vars : List String) (scope : Scope) : Prop where
  symbols : scope.symbols.names = heads.eraseDups
  varNames : scope.varNames = vars.eraseDups

theorem Met.number (h : Met heads vars scope) (name : String) :
    Met heads (vars ++ [name]) (scope.number name).2 ∧
      (scope.number name).1 = (vars ++ [name]).eraseDups.idxOf name := by
  have mem : name ∈ scope.varNames ↔ name ∈ vars := by rw [h.varNames, List.mem_eraseDups]
  rw [Scope.number, eraseDups_append_singleton]
  by_cases old : name ∈ vars
  · rw [if_pos (mem.2 old), if_pos old, ← h.varNames]
    refine ⟨⟨h.symbols, ?_⟩, rfl⟩
    rw [eraseDups_append_singleton, if_pos old, h.varNames]
  · rw [if_neg (mem.not.2 old), if_neg old, ← h.varNames]
    refine ⟨⟨h.symbols, ?_⟩, ?_⟩
    · rw [eraseDups_append_singleton, if_neg old, h.varNames]
    · rw [List.idxOf_append_of_notMem (mem.not.2 old)]
      simp

theorem Met.intern (h : Met heads vars scope) (name : String) :
    Met (heads ++ [name]) vars (scope.intern name).2 ∧
      (scope.intern name).1 = ⟨(heads ++ [name]).eraseDups.idxOf name⟩ := by
  have mem : name ∈ scope.symbols.names ↔ name ∈ heads := by rw [h.symbols, List.mem_eraseDups]
  rw [Scope.intern, SymbolTable.intern, eraseDups_append_singleton]
  by_cases old : name ∈ heads
  · rw [dif_pos (mem.2 old), if_pos old, ← h.symbols]
    refine ⟨⟨?_, h.varNames⟩, rfl⟩
    rw [eraseDups_append_singleton, if_pos old, ← h.symbols]
  · rw [dif_neg (mem.not.2 old), if_neg old, ← h.symbols]
    refine ⟨⟨?_, h.varNames⟩, ?_⟩
    · rw [eraseDups_append_singleton, if_neg old, ← h.symbols]
      rfl
    · rw [List.idxOf_append_of_notMem (mem.not.2 old)]
      simp [SymbolTable.size]

mutual
/-- Numbering goes on from the names that were met. -/
theorem toTerm_spec {heads vars : List String} {scope : Scope} (e : Expr) (h : Met heads vars scope) :
    Met (heads ++ e.headNames) (vars ++ e.varNames) (e.toTerm scope).2 ∧
      (e.toTerm scope).1 = e.build (heads ++ e.headNames).eraseDups (vars ++ e.varNames).eraseDups := by
  cases e with
  | var name =>
      obtain ⟨met, number⟩ := h.number name
      rw [toTerm, headNames, varNames, build, List.append_nil]
      exact ⟨met, congrArg Term.var number⟩
  | app f args =>
      obtain ⟨met, symbol⟩ := h.intern f
      obtain ⟨met', terms⟩ := toTerms_spec args met
      have same : heads ++ [f] ++ headNamesList args = heads ++ f :: headNamesList args := by simp
      rw [same] at met' terms
      have grown : (heads ++ [f]).eraseDups <+: (heads ++ f :: headNamesList args).eraseDups :=
        same ▸ eraseDups_grows _ _
      obtain ⟨more, longer⟩ := grown
      have place : (heads ++ [f]).eraseDups.idxOf f = (heads ++ f :: headNamesList args).eraseDups.idxOf f := by
        rw [← longer, List.idxOf_append_of_mem (List.mem_eraseDups.2 (by simp))]
      rw [toTerm, headNames, varNames, build]
      refine ⟨met', ?_⟩
      change Term.app (.symbol (scope.intern f).1) (toTerms args (scope.intern f).2).1 = _
      rw [symbol, terms, place]

theorem toTerms_spec {heads vars : List String} {scope : Scope} (es : List Expr) (h : Met heads vars scope) :
    Met (heads ++ headNamesList es) (vars ++ varNamesList es) (toTerms es scope).2 ∧
      (toTerms es scope).1 =
        buildList (heads ++ headNamesList es).eraseDups (vars ++ varNamesList es).eraseDups es := by
  cases es with
  | nil =>
      rw [toTerms, headNamesList, varNamesList, buildList, List.append_nil, List.append_nil]
      exact ⟨h, rfl⟩
  | cons e es =>
      obtain ⟨met, term⟩ := toTerm_spec e h
      obtain ⟨met', terms⟩ := toTerms_spec es met
      rw [List.append_assoc, List.append_assoc] at met' terms
      rw [toTerms, headNamesList, varNamesList, buildList]
      refine ⟨met', ?_⟩
      change (e.toTerm scope).1 :: (toTerms es (e.toTerm scope).2).1 = _
      rw [terms, term, List.cons.injEq]
      refine ⟨(build_grown ?_ ?_ ?_ ?_).symm, rfl⟩
      · rw [← List.append_assoc]
        exact eraseDups_grows _ _
      · rw [← List.append_assoc]
        exact eraseDups_grows _ _
      · intro f hf
        exact List.mem_eraseDups.2 (List.mem_append_right _ hf)
      · intro x hx
        exact List.mem_eraseDups.2 (List.mem_append_right _ hx)
end

end Expr

namespace SymbolTable

variable {table : SymbolTable} {text : String}

theorem met_start (table : SymbolTable) : Expr.Met table.names [] ⟨table, []⟩ where
  symbols := (eraseDups_of_nodup table.nodup).symm
  varNames := rfl

/-- The term was read: names are numbered in the order in which they first occur, and symbols that the table
lacks enter it in that order. -/
structure Numbered (table : SymbolTable) (e : Expr) (read : ReadTerm) : Prop where
  varNames : read.varNames = e.varNames.eraseDups
  symbols : read.symbols.names = (table.names ++ e.headNames).eraseDups
  term : read.term = e.build read.symbols.names read.varNames

/-- An equation was read, both sides of it with the same numbers. -/
structure NumberedBoth (table : SymbolTable) (l r : Expr) (read : ReadEquation) : Prop where
  varNames : read.varNames = (l.varNames ++ r.varNames).eraseDups
  symbols : read.symbols.names = (table.names ++ (l.headNames ++ r.headNames)).eraseDups
  lhs : read.lhs = l.build read.symbols.names read.varNames
  rhs : read.rhs = r.build read.symbols.names read.varNames

theorem Numbered.eq {e : Expr} {read read' : ReadTerm} (h : table.Numbered e read) (h' : table.Numbered e read') :
    read = read' := by
  have names : read.varNames = read'.varNames := h.varNames.trans h'.varNames.symm
  have symbols : read.symbols = read'.symbols := by
    rw [SymbolTable.mk.injEq]
    exact h.symbols.trans h'.symbols.symm
  have term : read.term = read'.term := by rw [h.term, h'.term, names, symbols]
  cases read
  cases read'
  simp_all

/-- What is made of a written term is what it is read as. -/
theorem numbered_toTerm (table : SymbolTable) (e : Expr) :
    table.Numbered e ⟨(e.toTerm ⟨table, []⟩).1, (e.toTerm ⟨table, []⟩).2.varNames,
      (e.toTerm ⟨table, []⟩).2.symbols⟩ := by
  obtain ⟨met, term⟩ := e.toTerm_spec table.met_start
  refine ⟨met.varNames, met.symbols, ?_⟩
  rw [met.symbols, met.varNames]
  exact term

theorem NumberedBoth.eq {l r : Expr} {read read' : ReadEquation} (h : table.NumberedBoth l r read)
    (h' : table.NumberedBoth l r read') : read = read' := by
  have names : read.varNames = read'.varNames := h.varNames.trans h'.varNames.symm
  have symbols : read.symbols = read'.symbols := by
    rw [SymbolTable.mk.injEq]
    exact h.symbols.trans h'.symbols.symm
  have lhs : read.lhs = read'.lhs := by rw [h.lhs, h'.lhs, names, symbols]
  have rhs : read.rhs = read'.rhs := by rw [h.rhs, h'.rhs, names, symbols]
  cases read
  cases read'
  simp_all

theorem numberedBoth_equationOf (table : SymbolTable) (l r : Expr) : table.NumberedBoth l r (table.equationOf l r) := by
  obtain ⟨met, terms⟩ := Expr.toTerms_spec [l, r] table.met_start
  have heads : Expr.headNamesList [l, r] = l.headNames ++ r.headNames := by simp [Expr.headNamesList]
  have vars : [] ++ Expr.varNamesList [l, r] = l.varNames ++ r.varNames := by simp [Expr.varNamesList]
  rw [heads, vars] at met terms
  have varNames : (table.equationOf l r).varNames = _ := met.varNames
  have symbols : (table.equationOf l r).symbols.names = _ := met.symbols
  have sides : [(table.equationOf l r).lhs, (table.equationOf l r).rhs] = [_, _] := terms
  obtain ⟨left, right⟩ := List.cons.inj sides
  refine ⟨varNames, symbols, ?_, ?_⟩
  · rw [symbols, varNames]
    exact left
  · rw [symbols, varNames]
    exact (List.cons.inj right).1

/-- A text is read as the term that it spells, with the names of that term numbered. -/
theorem readTerm_ok_iff {read : ReadTerm} :
    table.readTerm text = .ok read ↔ ∃ e, Reader.termExpr text.toList = .ok e ∧
      (⟨(e.toTerm ⟨table, []⟩).1, (e.toTerm ⟨table, []⟩).2.varNames, (e.toTerm ⟨table, []⟩).2.symbols⟩ :
        ReadTerm) = read := by
  rw [readTerm, Reader.bind_eq_ok_iff]
  constructor
  · rintro ⟨e, written, done⟩
    exact ⟨e, written, Except.ok.inj done⟩
  · rintro ⟨e, written, rfl⟩
    exact ⟨e, written, rfl⟩

theorem readEquation_ok_iff {read : ReadEquation} :
    table.readEquation text = .ok read ↔ ∃ pair, Reader.equationExpr text.toList = .ok pair ∧
      table.equationOf pair.1 pair.2 = read := by
  rw [readEquation, Reader.bind_eq_ok_iff]
  constructor
  · rintro ⟨pair, written, done⟩
    exact ⟨pair, written, Except.ok.inj done⟩
  · rintro ⟨pair, written, rfl⟩
    exact ⟨pair, written, rfl⟩

theorem readTerm_eq_ok_iff {read : ReadTerm} :
    table.readTerm text = .ok read ↔ ∃ e, Reader.TermText e text.toList ∧ table.Numbered e read := by
  rw [readTerm_ok_iff]
  refine exists_congr fun e => and_congr Reader.termExpr_eq_ok_iff ⟨?_, ?_⟩
  · rintro rfl
    exact table.numbered_toTerm e
  · exact (table.numbered_toTerm e).eq

theorem readEquation_eq_ok_iff {read : ReadEquation} : table.readEquation text = .ok read ↔
    ∃ l r, Reader.EquationText l r text.toList ∧ table.NumberedBoth l r read := by
  rw [readEquation_ok_iff, Prod.exists]
  refine exists_congr fun l => exists_congr fun r => and_congr Reader.equationExpr_eq_ok_iff ⟨?_, ?_⟩
  · rintro rfl
    exact table.numberedBoth_equationOf l r
  · exact (table.numberedBoth_equationOf l r).eq

section
open Reader
variable (table text)

/-- A text is read if and only if it is a term, or an equation, of the grammar, and then as that tree: variables
are numbered in the order in which their names first occur, on both sides of an equation alike. -/
theorem reads_grammar :
    ((∃ read, table.readTerm text = .ok read) ↔ ∃ e, TermText e text.toList) ∧
    (∀ e read, TermText e text.toList → (table.readTerm text = .ok read ↔ table.Numbered e read)) ∧
    ((∃ read, table.readEquation text = .ok read) ↔ ∃ l r, EquationText l r text.toList) ∧
    ∀ l r read, EquationText l r text.toList →
      (table.readEquation text = .ok read ↔ table.NumberedBoth l r read) := by
  refine ⟨⟨?_, ?_⟩, ?_, ⟨?_, ?_⟩, ?_⟩
  · rintro ⟨read, h⟩
    obtain ⟨e, written, -⟩ := readTerm_eq_ok_iff.1 h
    exact ⟨e, written⟩
  · rintro ⟨e, written⟩
    exact ⟨_, readTerm_eq_ok_iff.2 ⟨e, written, table.numbered_toTerm e⟩⟩
  · intro e read written
    constructor
    · intro h
      obtain ⟨e', written', numbered⟩ := readTerm_eq_ok_iff.1 h
      exact written.unique written' ▸ numbered
    · exact fun numbered => readTerm_eq_ok_iff.2 ⟨e, written, numbered⟩
  · rintro ⟨read, h⟩
    obtain ⟨l, r, written, -⟩ := readEquation_eq_ok_iff.1 h
    exact ⟨l, r, written⟩
  · rintro ⟨l, r, written⟩
    exact ⟨_, readEquation_eq_ok_iff.2 ⟨l, r, written, table.numberedBoth_equationOf l r⟩⟩
  · intro l r read written
    constructor
    · intro h
      obtain ⟨l', r', written', numbered⟩ := readEquation_eq_ok_iff.1 h
      obtain ⟨rfl, rfl⟩ := written.unique written'
      exact numbered
    · exact fun numbered => readEquation_eq_ok_iff.2 ⟨l, r, written, numbered⟩

end

/-- Comments stand between tokens, and tokens that cannot be taken for one need nothing between them. -/
example : (empty.readTerm "(f $x # first\n(g)$y$x)").toOption.map ReadTerm.varNames = some ["x", "y"] := by
  decide +kernel

end SymbolTable
end OrderedCompletion
