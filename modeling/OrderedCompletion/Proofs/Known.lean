import OrderedCompletion.Proofs.Reading
import OrderedCompletion.Term.Pieces

/-! What a text makes known, also if it is not read to its end. -/

namespace OrderedCompletion

namespace Expr

/-- Numbering some written names, after others, leads to terms with numbers that have names. -/
structure Numbers (scope : Scope) (written : List String) (ts : List Term) (scope' : Scope) : Prop where
  grows : scope.varNames <+: scope'.varNames
  named : ∀ name ∈ scope'.varNames, name ∈ scope.varNames ∨ name ∈ written
  inSig : ∀ t ∈ ts, t.Over .full
  known : ∀ t ∈ ts, ∀ v ∈ t.vars, v < scope'.varNames.length

variable {scope scope₁ scope₂ : Scope} {written written' : List String} {ts ts' : List Term}

theorem Numbers.trans (h : Numbers scope written ts scope₁) (h' : Numbers scope₁ written' ts' scope₂) :
    Numbers scope (written ++ written') (ts ++ ts') scope₂ where
  grows := h.grows.trans h'.grows
  named := fun name hn => by
    rcases h'.named name hn with old | new
    · rcases h.named name old with old | new
      · exact .inl old
      · exact .inr (List.mem_append_left _ new)
    · exact .inr (List.mem_append_right _ new)
  inSig := fun t ht => (List.mem_append.1 ht).elim (h.inSig t) (h'.inSig t)
  known := fun t ht v hv => by
    rcases List.mem_append.1 ht with ht | ht
    · exact Nat.lt_of_lt_of_le (h.known t ht v hv) h'.grows.length_le
    · exact h'.known t ht v hv

theorem number_numbers (scope : Scope) (name : String) :
    Numbers scope [name] [.var (scope.number name).1] (scope.number name).2 := by
  rw [Scope.number]
  split
  · rename_i here
    refine ⟨List.prefix_refl _, fun _ h => .inl h, fun t ht => ?_, fun t ht v hv => ?_⟩
    · obtain rfl := List.mem_singleton.1 ht
      exact .var _
    · obtain rfl := List.mem_singleton.1 ht
      obtain rfl := Term.mem_vars_var.1 hv
      exact List.idxOf_lt_length_of_mem here
  · refine ⟨List.prefix_append _ _, fun _ h => List.mem_append.1 h, fun t ht => ?_, fun t ht v hv => ?_⟩
    · obtain rfl := List.mem_singleton.1 ht
      exact .var _
    · obtain rfl := List.mem_singleton.1 ht
      obtain rfl := Term.mem_vars_var.1 hv
      simp

theorem Numbers.app {f : Head} (h : Numbers scope written ts scope₁) :
    Numbers scope written [.app f ts] scope₁ where
  grows := h.grows
  named := h.named
  inSig := fun t ht => by
    obtain rfl := List.mem_singleton.1 ht
    exact .app trivial h.inSig
  known := fun t ht v hv => by
    obtain rfl := List.mem_singleton.1 ht
    obtain ⟨a, ha, hv⟩ := Term.mem_vars_app.1 hv
    exact h.known a ha v hv

mutual
theorem toTerm_numbers (e : Expr) (scope : Scope) :
    Numbers scope e.varNames [(e.toTerm scope).1] (e.toTerm scope).2 := by
  cases e with
  | var name =>
      rw [toTerm, varNames]
      exact number_numbers scope name
  | app f args =>
      rw [toTerm, varNames]
      -- the symbol enters another table
      have later := toTerms_numbers args (scope.intern f).2
      exact Numbers.app ⟨later.grows, later.named, later.inSig, later.known⟩

theorem toTerms_numbers (es : List Expr) (scope : Scope) :
    Numbers scope (varNamesList es) (toTerms es scope).1 (toTerms es scope).2 := by
  cases es with
  | nil =>
      rw [toTerms, varNamesList]
      exact ⟨List.prefix_refl _, fun _ h => .inl h, nofun, nofun⟩
  | cons e es =>
      rw [toTerms, varNamesList]
      exact (toTerm_numbers e scope).trans (toTerms_numbers es _)
end

end Expr

namespace SymbolTable

variable {table : SymbolTable} {text : String}

theorem readTerm_spec {read : ReadTerm} (h : table.readTerm text = .ok read) :
    ∃ e, Reader.termExpr text.toList = .ok e ∧
      Expr.Numbers ⟨table, []⟩ e.varNames [read.term] ⟨read.symbols, read.varNames⟩ := by
  obtain ⟨e, written, rfl⟩ := readTerm_ok_iff.1 h
  exact ⟨e, written, e.toTerm_numbers ⟨table, []⟩⟩

theorem equationOf_over (table : SymbolTable) (lhs rhs : Expr) :
    (table.equationOf lhs rhs).lhs.Over .full ∧ (table.equationOf lhs rhs).rhs.Over .full :=
  ⟨(lhs.toTerm_numbers _).inSig _ (List.mem_singleton.2 rfl),
    (rhs.toTerm_numbers _).inSig _ (List.mem_singleton.2 rfl)⟩

theorem readEquation_over {read : ReadEquation} (h : table.readEquation text = .ok read) :
    read.lhs.Over .full ∧ read.rhs.Over .full := by
  obtain ⟨pair, -, rfl⟩ := readEquation_ok_iff.1 h
  exact equationOf_over table pair.1 pair.2

theorem equationsOf_over (table : SymbolTable) (es : List (Expr × Expr)) :
    ∀ d ∈ (table.equationsOf es).1, d.1.Over .full ∧ d.2.Over .full := by
  induction es generalizing table with
  | nil =>
      rw [equationsOf]
      exact nofun
  | cons e es ih =>
      rw [equationsOf]
      intro d hd
      rcases List.mem_cons.1 hd with rfl | hd
      · exact equationOf_over table e.1 e.2
      · exact ih _ d hd

theorem readEquations_over {pairs : List (Term × Term)} {table' : SymbolTable}
    (h : table.readEquations text = .ok (pairs, table')) :
    ∀ d ∈ pairs, d.1.Over .full ∧ d.2.Over .full := by
  rw [readEquations] at h
  obtain ⟨es, -, done⟩ := Reader.bind_eq_ok_iff.1 h
  have same : table.equationsOf es = (pairs, table') := Except.ok.inj done
  have inSig := equationsOf_over table es
  rwa [same] at inSig

end SymbolTable

namespace Reader

variable {known known' : Known} {piece : Piece} {pieces : List Piece} {n : Nat} {cur cur' : Cursor} {cs : List Char}
variable {e l r : Expr}

/-! ### What is read to its end is one piece -/

theorem termPieces_of_ok (h : term n cur = .ok (e, cur')) : termPieces n cur = [.whole e] := by
  cases n with
  | zero => cases h
  | succ n => rw [termPieces, h]

theorem textPieces_of_ok (h : termExpr cs = .ok e) : textPieces cs = [.whole e] := by
  obtain ⟨⟨_, cur⟩, read, rest⟩ := bind_eq_ok_iff.1 h
  obtain ⟨_, -, done⟩ := bind_eq_ok_iff.1 rest
  cases done
  exact termPieces_of_ok read

theorem equationPieces_of_ok (h : equationExpr cs = .ok (l, r)) : equationPieces cs = [.whole l, .whole r] := by
  obtain ⟨⟨_, cur⟩, left, rest⟩ := bind_eq_ok_iff.1 h
  obtain ⟨cur₁, sign, rest⟩ := bind_eq_ok_iff.1 rest
  obtain ⟨⟨_, cur₂⟩, right, rest⟩ := bind_eq_ok_iff.1 rest
  obtain ⟨_, -, done⟩ := bind_eq_ok_iff.1 rest
  cases done
  rw [equationPieces, left]
  dsimp only
  rw [sign]
  dsimp only
  rw [termPieces_of_ok right]

/-! ### More and more is known -/

/-- At least as much is known. -/
structure Known.Grows (known known' : Known) : Prop where
  names : known.scope.symbols.names <+: known'.scope.symbols.names
  store : known.store ≤ known'.store
  wellFormed : known'.store.WellFormed

theorem Known.Grows.refl (wf : known.store.WellFormed) : known.Grows known := ⟨List.prefix_refl _, le_rfl, wf⟩

theorem Known.Grows.trans {known'' : Known} (h : known.Grows known') (h' : known'.Grows known'') :
    known.Grows known'' :=
  ⟨h.names.trans h'.names, h.store.trans h'.store, h'.wellFormed⟩

theorem Known.grows_add (wf : known.store.WellFormed) (piece : Piece) : known.Grows (known.add piece) := by
  cases piece with
  | head f => exact ⟨(known.scope.symbols.intern_grows f).1, le_rfl, wf⟩
  | whole e =>
      have full := (e.toTerm_numbers known.scope).inSig _ (List.mem_singleton.2 rfl)
      obtain ⟨wf', le, -⟩ := Store.ofTerm_spec wf full
      exact ⟨e.toTerm_grows known.scope, le, wf'⟩

theorem Known.grows_foldl (wf : known.store.WellFormed) (pieces : List Piece) :
    known.Grows (pieces.foldl Known.add known) := by
  induction pieces generalizing known with
  | nil => exact .refl wf
  | cons piece pieces ih =>
      have first := Known.grows_add wf piece
      exact first.trans (ih first.wellFormed)

/-- The same names of variables, in another table and another store. -/
def Known.within (known : Known) (table : SymbolTable) (s : Store) : Known :=
  ⟨{ known.scope with symbols := table }, s⟩

/-- A piece that is known already adds nothing. -/
theorem Known.add_again {table : SymbolTable} {s : Store} (wf : known.store.WellFormed)
    (later : (known.add piece).Grows ⟨⟨table, []⟩, s⟩) :
    (known.within table s).add piece = (known.add piece).within table s := by
  cases piece with
  | head f =>
      have again := SymbolTable.intern_again later.names
      rw [add, within, Scope.intern]
      dsimp only
      rw [again]
      rfl
  | whole e =>
      have full := (e.toTerm_numbers known.scope).inSig _ (List.mem_singleton.2 rfl)
      obtain ⟨wf', -, denotes⟩ := Store.ofTerm_spec wf full
      have again := e.toTerm_again known.scope later.names
      have stored := Store.ofTerm_of_denotes later.wellFormed (denotes.mono wf' later.wellFormed later.store)
      rw [add, within]
      dsimp only
      rw [again]
      dsimp only
      rw [StateT.run, stored]
      rfl

theorem Known.foldl_again {table : SymbolTable} {s : Store} (wf : known.store.WellFormed)
    (later : (pieces.foldl Known.add known).Grows ⟨⟨table, []⟩, s⟩) :
    pieces.foldl Known.add (known.within table s) = (pieces.foldl Known.add known).within table s := by
  induction pieces generalizing known with
  | nil => rfl
  | cons piece pieces ih =>
      have first := Known.grows_add wf piece
      have rest := Known.grows_foldl first.wellFormed pieces
      rw [List.foldl_cons, Known.add_again wf (rest.trans later), ih first.wellFormed later]
      rfl

end Reader
end OrderedCompletion
