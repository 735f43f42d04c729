import OrderedCompletion.Proofs.Numbering
import OrderedCompletion.Proofs.Runs
import OrderedCompletion.Proofs.Symbols

/-! What was read once is read again as the same, in tables and stores that have grown since. -/

namespace OrderedCompletion

namespace Expr

variable {later : SymbolTable}

mutual
theorem toTerm_grows (e : Expr) (scope : Scope) : scope.symbols.names <+: (e.toTerm scope).2.symbols.names := by
  cases e with
  | var name =>
      change scope.symbols.names <+: (scope.number name).2.symbols.names
      rw [Scope.number]
      split
      · exact List.prefix_refl _
      · exact List.prefix_refl _
  | app f args =>
      have rest := toTerms_grows args (scope.intern f).2
      rw [toTerm]
      exact (scope.symbols.intern_grows f).1.trans rest

theorem toTerms_grows (es : List Expr) (scope : Scope) :
    scope.symbols.names <+: (toTerms es scope).2.symbols.names := by
  cases es with
  | nil => exact List.prefix_refl _
  | cons e es =>
      rw [toTerms]
      exact (toTerm_grows e scope).trans (toTerms_grows es _)
end

mutual
theorem toTerm_again (e : Expr) (scope : Scope) (h : (e.toTerm scope).2.symbols.names <+: later.names) :
    e.toTerm { scope with symbols := later } =
      ((e.toTerm scope).1, { (e.toTerm scope).2 with symbols := later }) := by
  cases e with
  | var name =>
      rw [toTerm, toTerm, Scope.number, Scope.number]
      dsimp only
      split
      · rfl
      · rfl
  | app f args =>
      rw [toTerm] at h
      have known := SymbolTable.intern_again ((toTerms_grows args (scope.intern f).2).trans h)
      have rest := toTerms_again args (scope.intern f).2 h
      rw [toTerm, toTerm, Scope.intern]
      dsimp only
      rw [known]
      exact congrArg (fun out : List Term × Scope => (Term.app _ out.1, out.2)) rest

theorem toTerms_again (es : List Expr) (scope : Scope)
    (h : (toTerms es scope).2.symbols.names <+: later.names) :
    toTerms es { scope with symbols := later } =
      ((toTerms es scope).1, { (toTerms es scope).2 with symbols := later }) := by
  cases es with
  | nil => rfl
  | cons e es =>
      rw [toTerms] at h
      have head := toTerm_again e scope ((toTerms_grows es (e.toTerm scope).2).trans h)
      have tail := toTerms_again es (e.toTerm scope).2 h
      rw [toTerms, toTerms, head]
      dsimp only
      rw [tail]
end

end Expr

namespace SymbolTable

variable {table later : SymbolTable} {text : String}

theorem readTerm_again {read : ReadTerm} (h : table.readTerm text = .ok read)
    (grown : read.symbols.names <+: later.names) : later.readTerm text = .ok { read with symbols := later } := by
  obtain ⟨e, written, rfl⟩ := readTerm_ok_iff.1 h
  refine readTerm_ok_iff.2 ⟨e, written, ?_⟩
  have again := e.toTerm_again ⟨table, []⟩ grown
  rw [again]

/-- Whether a text can be read does not depend on the table. -/
theorem readTerm_error {fault : ParseError} (h : table.readTerm text = .error fault) :
    later.readTerm text = .error fault := by
  rw [readTerm] at h ⊢
  cases written : Reader.termExpr text.toList with
  | error e =>
      rw [written] at h
      exact h
  | ok e =>
      rw [written] at h
      cases h

theorem equationOf_again (lhs rhs : Expr) (grown : (table.equationOf lhs rhs).symbols.names <+: later.names) :
    later.equationOf lhs rhs = { table.equationOf lhs rhs with symbols := later } := by
  rw [equationOf] at grown
  have left := lhs.toTerm_again ⟨table, []⟩ ((rhs.toTerm_grows _).trans grown)
  have right := rhs.toTerm_again (lhs.toTerm ⟨table, []⟩).2 grown
  rw [equationOf, equationOf, left]
  dsimp only
  rw [right]

theorem readEquation_again {read : ReadEquation} (h : table.readEquation text = .ok read)
    (grown : read.symbols.names <+: later.names) :
    later.readEquation text = .ok { read with symbols := later } := by
  obtain ⟨pair, written, rfl⟩ := readEquation_ok_iff.1 h
  exact readEquation_ok_iff.2 ⟨pair, written, equationOf_again pair.1 pair.2 grown⟩

theorem readEquation_error {fault : ParseError} (h : table.readEquation text = .error fault) :
    later.readEquation text = .error fault := by
  rw [readEquation] at h ⊢
  cases written : Reader.equationExpr text.toList with
  | error e =>
      rw [written] at h
      exact h
  | ok pair =>
      rw [written] at h
      cases h

end SymbolTable

namespace Store

variable {s : Store} {r : Ref}

/-- A node that is there is not stored again. -/
theorem intern_of_node {node : Node} (wf : s.WellFormed) (h : s.node? r = some node) : intern node s = (r, s) := by
  rw [intern, wf.index.2 h]

theorem ofTerms_of_denotesAll {ts : List Term} {rs : List Ref} (h : s.DenotesAll rs ts)
    (each : ∀ t ∈ ts, ∀ r, s.Denotes r t → ofTerm t s = (r, s)) : ofTerms ts s = (rs, s) := by
  induction h with
  | nil => rfl
  | @cons r t rs ts head tail ih =>
      rw [ofTerms]
      change ((ofTerm t s).1 :: (ofTerms ts (ofTerm t s).2).1, (ofTerms ts (ofTerm t s).2).2) = _
      rw [each t List.mem_cons_self r head, ih fun t ht => each t (List.mem_cons_of_mem _ ht)]

/-- Neither is a term. -/
theorem ofTerm_of_denotes {t : Term} (wf : s.WellFormed) (h : s.Denotes r t) : ofTerm t s = (r, s) := by
  induction t using Term.induct generalizing r with
  | var v => exact intern_of_node wf (h.node_var wf)
  | app f ts ih =>
      obtain ⟨args, hnode, all⟩ := h.node_app wf
      rw [ofTerm]
      change app f (ofTerms ts s).1 (ofTerms ts s).2 = (r, s)
      rw [ofTerms_of_denotesAll all fun t ht r hr => ih t ht hr]
      exact intern_of_node wf hnode
  | missing q => exact absurd (h.over_full wf) Term.not_over_missing

theorem ofTerms_of_means {eq : Equation} {d : Term × Term} (wf : s.WellFormed) (h : s.Means eq d) :
    Equation.ofTerms d.1 d.2 s = (eq, s) := by
  change ((⟨(ofTerm d.1 s).1, (ofTerm d.2 (ofTerm d.1 s).2).1⟩, (ofTerm d.2 (ofTerm d.1 s).2).2) :
    Equation × Store) = (eq, s)
  rw [ofTerm_of_denotes wf h.1, ofTerm_of_denotes wf h.2]

end Store
end OrderedCompletion
