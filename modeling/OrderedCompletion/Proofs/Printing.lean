import OrderedCompletion.Proofs.KnuthBendix
import OrderedCompletion.Proofs.Numbering
import OrderedCompletion.Proofs.Reading

/-! What is printed is read again: as the same terms, with the variables numbered in the order in which they
first occur. -/

namespace OrderedCompletion

/-- A name that can be read. -/
structure Reader.IsName (x : String) : Prop where
  nonempty : x.toList ≠ []
  chars : ∀ c ∈ x.toList, Reader.isNameChar c = true

/-- Symbols of a table whose names can be read, with any number of arguments. -/
def Signature.readable (symbols : SymbolTable) : Signature
  | .symbol f, _ => ∃ name, symbols.name? f = some name ∧ Reader.IsName name
  | .frozen _, _ => False

theorem Signature.readable_of_names {symbols : SymbolTable} {f : Symbol} {n : Nat}
    (h : ∀ name ∈ symbols.names, name.toList ≠ [] ∧ name.toList.all Reader.isNameChar = true)
    (known : f.index < symbols.names.length) : Signature.readable symbols (.symbol f) n := by
  obtain ⟨nonempty, chars⟩ := h _ (List.getElem_mem known)
  exact ⟨_, List.getElem?_eq_getElem known, nonempty, List.all_eq_true.1 chars⟩

/-! ### Texts and the grammar -/

namespace Reader

variable {x first others : String} {e : Expr} {es : List Expr} {rest : List Char}

/-- No name goes on into the text. -/
def Stops (cs : List Char) : Prop := ∀ c ∈ cs.head?, isNameChar c = false

theorem stops_cons {c : Char} (h : isNameChar c = false) : Stops (c :: rest) := by
  intro d hd
  obtain rfl := Option.some.inj hd
  exact h

/-- The text is part of a line without a comment. -/
def Inline (text : String) : Prop := ∀ c ∈ text.toList, c ≠ '#' ∧ c ≠ '\n'

theorem Inline.append {text text' : String} (h : Inline text) (h' : Inline text') : Inline (text ++ text') := by
  intro c hc
  rw [String.toList_append, List.mem_append] at hc
  exact hc.elim (h c) (h' c)

theorem inline_of_all {text : String} (h : text.toList.all (fun c => c ≠ '#' ∧ c ≠ '\n') = true) : Inline text :=
  fun c hc => of_decide_eq_true (List.all_eq_true.1 h c hc)

theorem IsName.inline (h : IsName x) : Inline x := by
  intro c hc
  have char := h.chars c hc
  constructor
  · rintro rfl
    exact absurd char (by decide)
  · rintro rfl
    exact absurd char (by decide)

theorem IsName.names (h : IsName x) (stops : Stops rest) : Names x (x.toList ++ rest) rest :=
  ⟨rfl, h.nonempty, h.chars, stops⟩

/-- The text is an expression for the reader. -/
structure Prints (text : String) (e : Expr) : Prop where
  spells : ∀ rest, Stops rest → Spells e (text.toList ++ rest) rest
  inline : Inline text

/-- The text is the arguments of an application behind its head. -/
structure PrintsAll (text : String) (es : List Expr) : Prop where
  stops : ∀ rest, Stops (text.toList ++ ')' :: rest)
  spells : ∀ rest, SpellsAll es (text.toList ++ ')' :: rest) rest
  inline : Inline text

theorem prints_var (h : IsName x) : Prints ("$" ++ x) (.var x) where
  spells := fun rest stops => by
    rw [String.toList_append]
    exact .var (h.names stops)
  inline := (inline_of_all (by decide)).append h.inline

theorem prints_constant (h : IsName x) : Prints x (.app x []) where
  spells := fun _ stops => .constant (h.names stops)
  inline := h.inline

theorem printsAll_nil : PrintsAll "" [] where
  stops := fun _ => stops_cons (by decide)
  spells := fun _ => .close .nil
  inline := inline_of_all (by decide)

/-- Arguments are printed behind blanks. -/
theorem PrintsAll.cons (h : Prints first e) (h' : PrintsAll others es) :
    PrintsAll (" " ++ first ++ others) (e :: es) := by
  have split : ∀ rest, (" " ++ first ++ others).toList ++ ')' :: rest =
      ' ' :: (first.toList ++ (others.toList ++ ')' :: rest)) := by simp
  refine ⟨fun rest => ?_, fun rest => ?_, ((inline_of_all (by decide)).append h.inline).append h'.inline⟩
  · rw [split]
    exact stops_cons (by decide)
  · rw [split]
    exact .cons (.blank (by decide) .nil) (h.spells _ (h'.stops rest)) (h'.spells rest)

theorem prints_app (h : IsName x) (h' : PrintsAll others es) : Prints ("(" ++ x ++ others ++ ")") (.app x es) where
  spells := fun rest _ => by
    have split : ("(" ++ x ++ others ++ ")").toList ++ rest =
        '(' :: (x.toList ++ (others.toList ++ ')' :: rest)) := by simp
    rw [split]
    exact .app .nil (h.names (h'.stops rest)) (h'.spells rest)
  inline := (((inline_of_all (by decide)).append h.inline).append h'.inline).append (inline_of_all (by decide))

end Reader

open Reader

namespace Term

variable {symbols : SymbolTable} {label : Var → String} {t : Term} {args : List Term}

mutual
/-- A term as it is written, with labels for its variables. -/
def written (symbols : SymbolTable) (label : Var → String) : Term → Expr
  | .var v => .var (label v)
  | .app (.symbol f) args => .app ((symbols.name? f).getD "") (writtenList symbols label args)
  | .app (.frozen v) _ => .var (label v)
  | .missing _ => .var ""

def writtenList (symbols : SymbolTable) (label : Var → String) : List Term → List Expr
  | [] => []
  | t :: ts => written symbols label t :: writtenList symbols label ts
end

/-- Variables are labelled with names, each with its own. -/
structure Labels (label : Var → String) : Prop where
  name : ∀ v, IsName (label v)
  injective : label.Injective

theorem isName_repr (v : Var) : IsName v.repr := by
  rw [Nat.repr_eq_ofList_toDigits]
  refine ⟨?_, ?_⟩
  · rw [String.toList_ofList]
    exact Nat.toDigits_ne_nil
  · intro c hc
    rw [String.toList_ofList] at hc
    have digit := Nat.isDigit_of_mem_toDigits (by decide) (by decide) hc
    simp [isNameChar, Char.isAlphanum, digit]

theorem labels_repr : Labels Nat.repr where
  name := isName_repr
  injective := fun v w same => by
    rw [Nat.repr_eq_ofList_toDigits, Nat.repr_eq_ofList_toDigits, String.ofList_inj] at same
    rw [← @Nat.ofDigitChars_ten_toDigits v, same, Nat.ofDigitChars_ten_toDigits]

theorem printRest_prints (h : ∀ t ∈ args, ∃ text, t.printWith symbols (fun v => "$" ++ label v) = .ok text ∧
    Prints text (t.written symbols label)) :
    ∃ text, printRest symbols (fun v => "$" ++ label v) args = .ok text ∧
      PrintsAll text (writtenList symbols label args) := by
  induction args with
  | nil => exact ⟨"", rfl, printsAll_nil⟩
  | cons t ts ih =>
      obtain ⟨first, printed, prints⟩ := h t List.mem_cons_self
      obtain ⟨others, printedAll, printsAll⟩ := ih fun u hu => h u (List.mem_cons_of_mem t hu)
      refine ⟨" " ++ first ++ others, ?_, printsAll.cons prints⟩
      rw [printRest, printed, printedAll]
      rfl

/-- A term without rigid variables all of whose symbols have names that can be read is printed, as a text that
the grammar derives from it. -/
theorem exists_prints (labels : Labels label) (ht : t.Over (.readable symbols)) :
    ∃ text, t.printWith symbols (fun v => "$" ++ label v) = .ok text ∧ Prints text (t.written symbols label) := by
  induction ht with
  | var v => exact ⟨"$" ++ label v, rfl, prints_var (labels.name v)⟩
  | @app f args known _ ih =>
      cases f with
      | frozen v => exact known.elim
      | symbol f =>
          obtain ⟨name, named, isName⟩ := known
          have head : (Head.symbol f).print symbols = .ok name := by rw [Head.print, named]
          have label : (symbols.name? f).getD "" = name := by rw [named, Option.getD_some]
          rw [written, label]
          cases args with
          | nil => exact ⟨name, head, prints_constant isName⟩
          | cons t ts =>
              obtain ⟨first, printed, prints⟩ := ih t List.mem_cons_self
              obtain ⟨others, printedAll, printsAll⟩ := printRest_prints fun u hu => ih u (List.mem_cons_of_mem t hu)
              have whole : "(" ++ name ++ (" " ++ first ++ others) ++ ")" =
                  "(" ++ name ++ " " ++ first ++ others ++ ")" := by simp only [String.append_assoc]
              refine ⟨_, ?_, whole ▸ prints_app isName (printsAll.cons prints)⟩
              rw [printWith, head, printed, printedAll]
              rfl

/-! ### Terms that are read again -/

/-- The numbers are 0, 1, 2 and so on in the order in which they first occur. -/
def InOrder (vs : List Var) : Prop := ∃ n, vs.eraseDups = List.range n

/-- The term with its variables numbered in the order in which they first occur in a list. -/
def numberBy (vs : List Var) (t : Term) : Term := t.subst fun v => .var (vs.eraseDups.idxOf v)

theorem writtenList_eq_map : writtenList symbols label args = args.map (written symbols label) := by
  induction args with
  | nil => rfl
  | cons t ts ih => rw [writtenList, ih, List.map_cons]

theorem varNames_written (ht : t.Over (.readable symbols)) :
    (t.written symbols label).varNames = t.occurrences.map label := by
  induction ht with
  | var v => rfl
  | @app f args known _ ih =>
      cases f with
      | frozen v => exact known.elim
      | symbol f =>
          rw [written, Expr.varNames, Expr.varNamesList_eq_flatMap, writtenList_eq_map, List.flatMap_map,
            occurrences_app, List.map_flatMap]
          exact List.flatMap_congr ih

theorem headNames_written (ht : t.Over (.readable symbols)) : (t.written symbols label).headNames ⊆ symbols.names := by
  induction ht with
  | var v => exact nofun
  | @app f args known _ ih =>
      cases f with
      | frozen v => exact known.elim
      | symbol f =>
          obtain ⟨name, named, -⟩ := known
          rw [written, Expr.headNames, Expr.headNamesList_eq_flatMap, writtenList_eq_map, List.flatMap_map, named]
          intro other h
          rcases List.mem_cons.1 h with rfl | h
          · exact List.mem_of_getElem? named
          · obtain ⟨a, ha, h⟩ := List.mem_flatMap.1 h
            exact ih a ha h

theorem build_written (labels : Labels label) (ht : t.Over (.readable symbols)) (vs : List Var) :
    (t.written symbols label).build symbols.names (vs.map label) = t.subst fun v => .var (vs.idxOf v) := by
  induction ht with
  | var v => rw [written, Expr.build, subst_var, idxOf_map labels.injective]
  | @app f args known _ ih =>
      cases f with
      | frozen v => exact known.elim
      | symbol f =>
          obtain ⟨name, named, -⟩ := known
          obtain ⟨lt, here⟩ := List.getElem?_eq_some_iff.1 named
          have place : symbols.names.idxOf name = f.index := here ▸ symbols.nodup.idxOf_getElem f.index lt
          rw [written, Expr.build, Expr.buildList_eq_map, writtenList_eq_map, List.map_map, named, Option.getD_some,
            place, subst_app]
          exact congrArg _ (List.map_congr_left ih)

variable {spell spell' : Var → String}

theorem printRest_congr {ts ts' : List Term}
    (same : List.Forall₂ (fun t t' => t'.printWith symbols spell' = t.printWith symbols spell) ts ts') :
    printRest symbols spell' ts' = printRest symbols spell ts := by
  induction same with
  | nil => rfl
  | cons here _ ih => rw [printRest, printRest, here, ih]

/-- If variables are spelled alike under their other names, terms are printed alike. -/
theorem printWith_subst {ρ : Var → Var} (same : ∀ v ∈ t.vars, spell' (ρ v) = spell v) :
    (t.subst fun v => .var (ρ v)).printWith symbols spell' = t.printWith symbols spell := by
  induction t using Term.induct with
  | var v => rw [subst_var, printWith, printWith, same v (mem_vars_var.2 rfl)]
  | missing ref => rfl
  | app f args ih =>
      have all : ∀ t ∈ args, (t.subst fun v => .var (ρ v)).printWith symbols spell' = t.printWith symbols spell :=
        fun t ht => ih t ht fun v hv => same v (mem_vars_app.2 ⟨t, ht, hv⟩)
      rw [subst_app]
      cases args with
      | nil => rfl
      | cons t ts =>
          have rest : printRest symbols spell' (ts.map (subst fun v => .var (ρ v))) = printRest symbols spell ts :=
            printRest_congr (List.forall₂_map_right_iff.2
              (List.forall₂_same.2 fun t ht => all t (List.mem_cons_of_mem _ ht)))
          rw [List.map_cons, printWith, printWith, all t List.mem_cons_self, rest]

/-- With the labels of its variables for their numbers a term is printed as it was before it was numbered. -/
theorem printWith_numberBy {vs : List Var} (inside : ∀ v ∈ t.vars, v ∈ vs) :
    (t.numberBy vs).printWith symbols (fun v => "$" ++ (vs.eraseDups.map label).getD v "") =
      t.printWith symbols fun v => "$" ++ label v := by
  rw [numberBy]
  apply printWith_subst
  intro v hv
  have mem : v ∈ vs.eraseDups := List.mem_eraseDups.2 (inside v hv)
  have lt : vs.eraseDups.idxOf v < vs.eraseDups.length := List.idxOf_lt_length_of_mem mem
  rw [List.getD_eq_getElem?_getD, List.getElem?_map, List.getElem?_eq_getElem lt, List.getElem_idxOf lt]
  rfl

/-- A term whose variables are numbered in this way already stays as it is. -/
theorem numberBy_of_inOrder {vs : List Var} (h : InOrder vs) (inside : ∀ v ∈ t.vars, v ∈ vs) : t.numberBy vs = t := by
  obtain ⟨n, numbered⟩ := h
  rw [numberBy]
  apply subst_eq_self
  intro v hv
  have lt : v < n := by
    rw [← List.mem_range, ← numbered]
    exact List.mem_eraseDups.2 (inside v hv)
  have place := List.nodup_range.idxOf_getElem v (lt.trans_eq List.length_range.symm)
  rw [List.getElem_range] at place
  rw [numbered, place]

end Term

namespace SymbolTable

open Term

variable {symbols : SymbolTable} {label : Var → String} {l r t : Term} {read : ReadTerm}

/-- A written term is read with the number of a variable for its label. -/
theorem Numbered.of_written (labels : Labels label) (ht : t.Over (.readable symbols))
    (h : symbols.Numbered (t.written symbols label) read) :
    read = ⟨t.numberBy t.occurrences, t.occurrences.eraseDups.map label, symbols⟩ := by
  have names : read.varNames = t.occurrences.eraseDups.map label := by
    rw [h.varNames, varNames_written ht, eraseDups_map labels.injective]
  have table : read.symbols = symbols := by
    rw [SymbolTable.mk.injEq, h.symbols, eraseDups_append_of_subset (headNames_written ht),
      eraseDups_of_nodup symbols.nodup]
  have term : read.term = t.numberBy t.occurrences := by
    rw [h.term, table, names, build_written labels ht, numberBy]
  cases read
  simp_all

theorem NumberedBoth.of_written {read : ReadEquation} (labels : Labels label) (hl : l.Over (.readable symbols))
    (hr : r.Over (.readable symbols))
    (h : symbols.NumberedBoth (l.written symbols label) (r.written symbols label) read) :
    read = ⟨l.numberBy (l.occurrences ++ r.occurrences), r.numberBy (l.occurrences ++ r.occurrences),
      (l.occurrences ++ r.occurrences).eraseDups.map label, symbols⟩ := by
  have names : read.varNames = (l.occurrences ++ r.occurrences).eraseDups.map label := by
    rw [h.varNames, varNames_written hl, varNames_written hr, ← List.map_append, eraseDups_map labels.injective]
  have table : read.symbols = symbols := by
    rw [SymbolTable.mk.injEq, h.symbols, eraseDups_append_of_subset, eraseDups_of_nodup symbols.nodup]
    exact List.append_subset.2 ⟨headNames_written hl, headNames_written hr⟩
  have lhs : read.lhs = l.numberBy (l.occurrences ++ r.occurrences) := by
    rw [h.lhs, table, names, build_written labels hl, numberBy]
  have rhs : read.rhs = r.numberBy (l.occurrences ++ r.occurrences) := by
    rw [h.rhs, table, names, build_written labels hr, numberBy]
  cases read
  simp_all

/-- A printed term is read as the term with its variables numbered, and their numerals for names. -/
theorem readTerm_print (ht : t.Over (.readable symbols)) : ∃ text, t.print symbols = .ok text ∧
    symbols.readTerm text = .ok ⟨t.numberBy t.occurrences, t.occurrences.eraseDups.map Nat.repr, symbols⟩ := by
  obtain ⟨text, printed, prints⟩ := exists_prints labels_repr ht
  refine ⟨text, printed, ?_⟩
  have spells := prints.spells [] nofun
  rw [List.append_nil] at spells
  have numbered := symbols.numbered_toTerm (t.written symbols Nat.repr)
  rw [numbered.of_written labels_repr ht] at numbered
  exact readTerm_eq_ok_iff.2 ⟨_, ⟨_, _, .nil, spells, .nil⟩, numbered⟩

end SymbolTable

end OrderedCompletion
