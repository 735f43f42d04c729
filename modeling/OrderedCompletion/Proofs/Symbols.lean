import Mathlib.Data.List.Basic
import OrderedCompletion.Symbol

/-! Tables of symbols: a name belongs to one symbol, which keeps it while the table grows. -/

namespace OrderedCompletion.SymbolTable

variable {table later : SymbolTable} {f g : Symbol} {name : String}

@[ext]
theorem ext_names (h : table.names = later.names) : table = later := by
  obtain ⟨names, nodup⟩ := table
  obtain ⟨names', nodup'⟩ := later
  obtain rfl : names = names' := h
  rfl

/-- A name belongs to one symbol. -/
theorem eq_of_name (hf : table.name? f = some name) (hg : table.name? g = some name) : f = g := by
  rw [name?] at hf hg
  obtain ⟨lt, -⟩ := List.getElem?_eq_some_iff.1 hf
  have index : f.index = g.index := (List.getElem?_inj lt table.nodup).1 (hf.trans hg.symm)
  cases f
  cases g
  rw [Symbol.mk.injEq]
  exact index

theorem index_lt_size (h : table.name? f = some name) : f.index < table.size := by
  rw [name?] at h
  obtain ⟨lt, -⟩ := List.getElem?_eq_some_iff.1 h
  exact lt

theorem name?_of_prefix (grown : table.names <+: later.names) (h : table.name? f = some name) :
    later.name? f = some name := by
  obtain ⟨more, same⟩ := grown
  have lt : f.index < table.names.length := index_lt_size h
  rw [name?, ← same, List.getElem?_append_left lt]
  exact h

theorem intern_grows (table : SymbolTable) (name : String) :
    table.names <+: (table.intern name).2.names ∧ name ∈ (table.intern name).2.names := by
  unfold intern
  split
  · rename_i here
    exact ⟨List.prefix_refl _, here⟩
  · exact ⟨List.prefix_append _ _, List.mem_append_right _ List.mem_cons_self⟩

theorem name?_intern (table : SymbolTable) (name : String) :
    (table.intern name).2.name? (table.intern name).1 = some name := by
  unfold intern
  split
  · rename_i here
    simp [name?, List.getElem?_idxOf here]
  · simp [name?, push, size]

/-- A name that the table had when it was interned keeps its symbol. -/
theorem intern_again (h : (table.intern name).2.names <+: later.names) :
    later.intern name = ((table.intern name).1, later) := by
  obtain ⟨rest, same⟩ := h
  have here := (table.intern_grows name).2
  have found : name ∈ later.names := by
    rw [← same]
    exact List.mem_append_left _ here
  have first : later.names.idxOf name = (table.intern name).1.index := by
    rw [← same, List.idxOf_append_of_mem here]
    unfold intern
    split
    · rfl
    · rename_i fresh
      change (table.names ++ [name]).idxOf name = table.names.length
      rw [List.idxOf_append_of_notMem fresh]
      simp
  rw [intern, dif_pos found, first]

theorem internAll_grows (table : SymbolTable) (names : List String) :
    table.names <+: (table.internAll names).2.names := by
  induction names generalizing table with
  | nil => exact List.prefix_refl _
  | cons name names ih =>
      rw [internAll]
      exact (table.intern_grows name).1.trans (ih _)

/-- The symbols that are handed out for names have these names, also those for a repeated one. -/
theorem map_name?_internAll (table : SymbolTable) (names : List String) :
    (table.internAll names).1.map (table.internAll names).2.name? = names.map some := by
  induction names generalizing table with
  | nil => rfl
  | cons name names ih =>
      have first := name?_of_prefix (internAll_grows _ names) (table.name?_intern name)
      simp only [internAll, List.map_cons]
      rw [first, ih]

end OrderedCompletion.SymbolTable
