import OrderedCompletion.Proofs.Printing

/-! Equations and lists of them that are printed are read again, and what is stored is found again. -/

namespace OrderedCompletion

open Reader

/-! ### Lines of equations -/

namespace Text

variable {line rest : List Char}

theorem linesWithEnds_cons (inside : '\n' ∉ line) :
    linesWithEnds (line ++ '\n' :: rest) = (line ++ ['\n']) :: linesWithEnds rest := by
  induction line with
  | nil => rfl
  | cons c line ih =>
      obtain ⟨other, inside⟩ := not_or.1 (List.mem_cons.not.1 inside)
      rw [List.cons_append, linesWithEnds, if_neg (Ne.symm other), ih inside]
      rfl

theorem linesWithEnds_last (inside : '\n' ∉ line) (nonempty : line ≠ []) : linesWithEnds line = [line] := by
  induction line with
  | nil => exact absurd rfl nonempty
  | cons c line ih =>
      obtain ⟨other, inside⟩ := not_or.1 (List.mem_cons.not.1 inside)
      rw [linesWithEnds, if_neg (Ne.symm other)]
      cases line with
      | nil => rfl
      | cons d line => rw [ih inside (List.cons_ne_nil d line)]

/-- Trimming leaves what is not white. -/
theorem trim_ne_nil {cs : List Char} {c : Char} (hc : c ∈ cs) (shown : isWhite c = false) : trim cs ≠ [] := by
  have kept : ∀ {ds : List Char}, c ∈ ds → c ∈ ds.dropWhile isWhite := by
    intro ds hd
    rw [← List.takeWhile_append_dropWhile (p := isWhite) (l := ds)] at hd
    refine (List.mem_append.1 hd).resolve_left fun white => ?_
    rw [List.mem_takeWhile_imp white] at shown
    cases shown
  rw [trim, trimEnd, trimStart, Ne, List.reverse_eq_nil_iff]
  exact List.ne_nil_of_mem (kept (List.mem_reverse.2 (kept hc)))

end Text

namespace Reader

/-- The text is an equation for the reader, also with the end of a line, and is on a line of its own. -/
structure PrintsLine (text : String) (e : Expr × Expr) : Prop where
  reads : ∀ tail, (∀ c ∈ tail, isBlank c = true) → EquationText e.1 e.2 (text.toList ++ tail)
  inline : Inline text
  shown : ∃ c ∈ text.toList, Text.isWhite c = false

theorem gap_of_blank {cs : List Char} (h : ∀ c ∈ cs, isBlank c = true) : Gap cs [] := by
  induction cs with
  | nil => exact .nil
  | cons c cs ih => exact .blank (h c List.mem_cons_self) (ih fun d hd => h d (List.mem_cons_of_mem c hd))

theorem stops_of_blank {cs : List Char} (h : ∀ c ∈ cs, isBlank c = true) : Stops cs := by
  intro c hc
  have blank := h c (List.mem_of_mem_head? hc)
  cases name : isNameChar c with
  | false => rfl
  | true =>
      have bare : Bare [c] := bare_of_name name
      rw [(bare c rfl).1] at blank
      cases blank

/-- A line with an equation is read as that equation, however the line ends. -/
theorem equationExprs_cons {text : String} {e : Expr × Expr} {es : List (Expr × Expr)} {tail : List Char}
    {lines : List (List Char)} {offset : Nat} (h : PrintsLine text e) (blank : ∀ c ∈ tail, isBlank c = true)
    (others : ∀ offset, equationExprs offset lines = .ok es) :
    equationExprs offset ((text.toList ++ tail) :: lines) = .ok (e :: es) := by
  have uncut : body (text.toList ++ tail) = text.toList ++ tail := by
    rw [body, List.takeWhile_eq_self_iff]
    intro c hc
    have other : c ≠ '#' := by
      rcases List.mem_append.1 hc with hc | hc
      · exact (h.inline c hc).1
      · rintro rfl
        exact absurd (blank _ hc) (by decide)
    exact decide_eq_true other
  obtain ⟨c, hc, shown⟩ := h.shown
  have some : (Text.trim (text.toList ++ tail)).isEmpty = false := by
    rw [List.isEmpty_eq_false_iff]
    exact Text.trim_ne_nil (List.mem_append_left tail hc) shown
  rw [equationExprs, uncut, some, equationExpr_eq_ok_iff.2 (h.reads tail blank), others]
  rfl

/-- Printed lines are read in turn. The last one need not be ended. -/
theorem equationExprs_lines {texts : List String} {es : List (Expr × Expr)} {tail : String}
    (h : List.Forall₂ PrintsLine texts es) (ends : tail = "" ∨ tail = "\n") (offset : Nat) :
    equationExprs offset (Text.linesWithEnds ("\n".intercalate texts ++ tail).toList) = .ok es := by
  induction h generalizing offset with
  | nil => rcases ends with rfl | rfl <;> rfl
  | @cons text e texts es here others ih =>
      have inside : '\n' ∉ text.toList := fun cut => (here.inline _ cut).2 rfl
      cases others with
      | nil =>
          -- the last line, without and with its end
          rw [String.intercalate_singleton, String.toList_append]
          rcases ends with rfl | rfl
          · obtain ⟨c, hc, -⟩ := here.shown
            have last : equationExprs offset [text.toList ++ []] = .ok [e] := equationExprs_cons here nofun fun _ => rfl
            rw [List.append_nil] at last
            rw [String.toList_empty, List.append_nil, Text.linesWithEnds_last inside (List.ne_nil_of_mem hc)]
            exact last
          · have newline : "\n".toList = '\n' :: [] := rfl
            rw [newline, Text.linesWithEnds_cons inside]
            exact equationExprs_cons here (by simp [isBlank]) fun _ => rfl
      | @cons next d texts es _ _ =>
          have split : ("\n".intercalate (text :: next :: texts) ++ tail).toList =
              text.toList ++ '\n' :: ("\n".intercalate (next :: texts) ++ tail).toList := by
            rw [String.intercalate_cons_cons]
            simp
          rw [split, Text.linesWithEnds_cons inside]
          exact equationExprs_cons here (by simp [isBlank]) ih

end Reader

/-- The signs that an equation is read with. -/
def Separator (sep : String) : Prop := sep = "=" ∨ sep = "->"

theorem Separator.inline {sep : String} (h : Separator sep) : Inline sep := by
  rcases h with rfl | rfl
  · exact inline_of_all (by decide)
  · exact inline_of_all (by decide)

namespace Term

variable {symbols : SymbolTable} {l r : Term} {sep : String}

/-- The variables of two terms from left to right. -/
def occurrencesBoth (c : Term × Term) : List Var := c.1.occurrences ++ c.2.occurrences

/-- The terms with the variables of both numbered in the order in which they first occur. -/
def numberPair (c : Term × Term) : Term × Term :=
  (c.1.numberBy (occurrencesBoth c), c.2.numberBy (occurrencesBoth c))

theorem printPair_prints (sign : Separator sep) (hl : l.Over (.readable symbols)) (hr : r.Over (.readable symbols)) :
    ∃ a b, l.print symbols = .ok a ∧ r.print symbols = .ok b ∧
      l.printPair symbols sep r = .ok (a ++ " " ++ sep ++ " " ++ b) ∧
      PrintsLine (a ++ " " ++ sep ++ " " ++ b) (l.written symbols Nat.repr, r.written symbols Nat.repr) := by
  obtain ⟨a, printed, prints⟩ := exists_prints labels_repr hl
  obtain ⟨b, printed', prints'⟩ := exists_prints labels_repr hr
  refine ⟨a, b, printed, printed', ?_, ?_, ?_, ?_⟩
  · change (do
      let a ← l.printWith symbols fun v => "$" ++ v.repr
      let b ← r.printWith symbols fun v => "$" ++ v.repr
      return a ++ " " ++ sep ++ " " ++ b) = _
    rw [printed, printed']
    rfl
  · intro tail blank
    have text : (a ++ " " ++ sep ++ " " ++ b).toList ++ tail =
        a.toList ++ ' ' :: (sep.toList ++ ' ' :: (b.toList ++ tail)) := by simp
    have separates : Separates (sep.toList ++ ' ' :: (b.toList ++ tail)) (' ' :: (b.toList ++ tail)) := by
      rcases sign with rfl | rfl
      · exact .equal
      · exact .arrow
    rw [text]
    exact ⟨_, _, _, _, _, _, .nil, prints.spells _ (stops_cons (by decide)), .blank (by decide) .nil, separates,
      .blank (by decide) .nil, prints'.spells tail (stops_of_blank blank), gap_of_blank blank⟩
  · have blank : Inline " " := inline_of_all (by decide)
    exact (((prints.inline.append blank).append sign.inline).append blank).append prints'.inline
  · rcases sign with rfl | rfl
    · exact ⟨'=', by simp, by decide⟩
    · exact ⟨'>', by simp, by decide⟩

end Term

namespace SymbolTable

open Term Reader

variable {symbols : SymbolTable} {l r : Term} {sep : String}

/-- A printed equation is read with the variables of both sides numbered. -/
theorem readEquation_print (sign : Separator sep) (hl : l.Over (.readable symbols)) (hr : r.Over (.readable symbols)) :
    ∃ a b, l.print symbols = .ok a ∧ r.print symbols = .ok b ∧
      l.printPair symbols sep r = .ok (a ++ " " ++ sep ++ " " ++ b) ∧
      symbols.readEquation (a ++ " " ++ sep ++ " " ++ b) = .ok ⟨(numberPair (l, r)).1, (numberPair (l, r)).2,
        (occurrencesBoth (l, r)).eraseDups.map Nat.repr, symbols⟩ := by
  obtain ⟨a, b, printed, printed', together, prints⟩ := printPair_prints sign hl hr
  refine ⟨a, b, printed, printed', together, ?_⟩
  have numbered := symbols.numberedBoth_equationOf (l.written symbols Nat.repr) (r.written symbols Nat.repr)
  rw [numbered.of_written labels_repr hl hr] at numbered
  have reads := prints.reads [] nofun
  rw [List.append_nil] at reads
  exact readEquation_eq_ok_iff.2 ⟨_, _, reads, numbered⟩

theorem equationsOf_written {cs : List (Term × Term)}
    (readable : ∀ c ∈ cs, c.1.Over (.readable symbols) ∧ c.2.Over (.readable symbols)) :
    symbols.equationsOf (cs.map fun c => (c.1.written symbols Nat.repr, c.2.written symbols Nat.repr)) =
      (cs.map numberPair, symbols) := by
  induction cs with
  | nil => rfl
  | cons c cs ih =>
      obtain ⟨hl, hr⟩ := readable c List.mem_cons_self
      have numbered := symbols.numberedBoth_equationOf (c.1.written symbols Nat.repr) (c.2.written symbols Nat.repr)
      rw [List.map_cons, equationsOf, numbered.of_written labels_repr hl hr,
        ih fun d hd => readable d (List.mem_cons_of_mem c hd)]
      rfl

/-- Printed equations, each on a line, are read in turn. -/
theorem readEquations_print {cs : List (Term × Term)} {texts : List String} {tail : String}
    (readable : ∀ c ∈ cs, c.1.Over (.readable symbols) ∧ c.2.Over (.readable symbols))
    (printed : List.Forall₂ (fun c text => ∃ sep, Separator sep ∧ c.1.printPair symbols sep c.2 = .ok text) cs texts)
    (ends : tail = "" ∨ tail = "\n") :
    symbols.readEquations ("\n".intercalate texts ++ tail) = .ok (cs.map numberPair, symbols) := by
  have prints : List.Forall₂ PrintsLine texts
      (cs.map fun c => (c.1.written symbols Nat.repr, c.2.written symbols Nat.repr)) := by
    induction printed with
    | nil => exact .nil
    | @cons c text cs texts here _ ih =>
        obtain ⟨sep, sign, here⟩ := here
        obtain ⟨hl, hr⟩ := readable c List.mem_cons_self
        obtain ⟨a, b, -, -, together, prints⟩ := printPair_prints sign hl hr
        obtain rfl := Except.ok.inj (here.symm.trans together)
        exact .cons prints (ih fun d hd => readable d (List.mem_cons_of_mem c hd))
  rw [readEquations, equationExprs_lines prints ends]
  exact congrArg Except.ok (equationsOf_written readable)

end SymbolTable

/-! ### Stored terms -/

/-- How a variable is spelled if the variables have names by number. -/
def namedVar (names : List String) (v : Var) : String := "$" ++ names.getD v ""

/-- The terms that an equation is about. -/
def Equation.terms (s : Store) (e : Equation) : Term × Term := (s.term e.lhs, s.term e.rhs)

namespace Term

variable {t : Term} {vs : List Var} {c : Term × Term} {sig : Signature}

theorem numberBy_over (h : t.Over sig) : (t.numberBy vs).Over sig := h.subst fun _ _ => .var _

theorem mem_occurrencesBoth_left {v : Var} (h : v ∈ c.1.vars) : v ∈ occurrencesBoth c :=
  List.mem_append_left _ (mem_occurrences.2 h)

theorem mem_occurrencesBoth_right {v : Var} (h : v ∈ c.2.vars) : v ∈ occurrencesBoth c :=
  List.mem_append_right _ (mem_occurrences.2 h)

theorem numberPair_of_inOrder (h : InOrder (occurrencesBoth c)) : numberPair c = c :=
  Prod.ext (numberBy_of_inOrder h fun _ => mem_occurrencesBoth_left)
    (numberBy_of_inOrder h fun _ => mem_occurrencesBoth_right)

end Term

open Term

namespace Store

variable {s : Store} {symbols : SymbolTable} {r : Ref} {e : Equation} {sep text tail : String}

/-- The reference is known, and its term can be printed and read. -/
structure Readable (s : Store) (symbols : SymbolTable) (r : Ref) : Prop where
  known : r < s.size
  readable : (s.term r).Over (.readable symbols)

/-- A text is read as a stored term: with its variables numbered, with their old numbers for names, and, if they
were numbered in this way, as the same reference. With these names the term is printed as the text. -/
structure Returns (s : Store) (symbols : SymbolTable) (r : Ref) (text : String) (read : ReadTerm) : Prop where
  term : read.term = (s.term r).numberBy (s.term r).occurrences
  varNames : read.varNames = (s.term r).occurrences.eraseDups.map Nat.repr
  table : read.symbols = symbols
  again : read.term.printWith symbols (namedVar read.varNames) = .ok text
  stored : s.Ensures (ofTerm read.term) fun q s' => s'.Denotes q read.term
  same : InOrder (s.term r).occurrences → ofTerm read.term s = (r, s)

/-- A text is read as a stored equation, likewise. Its sides share the names. -/
structure ReturnsEquation (s : Store) (symbols : SymbolTable) (sep : String) (e : Equation) (text : String)
    (read : ReadEquation) : Prop where
  sides : (read.lhs, read.rhs) = numberPair (e.terms s)
  varNames : read.varNames = (occurrencesBoth (e.terms s)).eraseDups.map Nat.repr
  table : read.symbols = symbols
  again : ∃ a b, read.lhs.printWith symbols (namedVar read.varNames) = .ok a ∧
    read.rhs.printWith symbols (namedVar read.varNames) = .ok b ∧ text = a ++ " " ++ sep ++ " " ++ b
  stored : s.Ensures (Equation.ofTerms read.lhs read.rhs) fun d s' => s'.Means d (read.lhs, read.rhs)
  same : InOrder (occurrencesBoth (e.terms s)) → Equation.ofTerms read.lhs read.rhs s = (e, s)

theorem Readable.returns (wf : s.WellFormed) (h : s.Readable symbols r) :
    ∃ text read, (s.term r).print symbols = .ok text ∧ symbols.readTerm text = .ok read ∧
      s.Returns symbols r text read := by
  obtain ⟨text, printed, reads⟩ := SymbolTable.readTerm_print h.readable
  have inside : ∀ v ∈ (s.term r).vars, v ∈ (s.term r).occurrences := fun v => mem_occurrences.2
  refine ⟨text, _, printed, reads, rfl, rfl, rfl, ?_, ?_, ?_⟩
  · exact (printWith_numberBy inside).trans printed
  · exact ofTerm_spec wf (numberBy_over h.readable).full
  · intro order
    rw [numberBy_of_inOrder order inside]
    exact ofTerm_of_denotes wf ⟨h.known, rfl⟩

theorem Readable.means (hl : s.Readable symbols e.lhs) (hr : s.Readable symbols e.rhs) : s.Means e (e.terms s) :=
  ⟨⟨hl.known, rfl⟩, ⟨hr.known, rfl⟩⟩

theorem Readable.returnsEquation (wf : s.WellFormed) (sign : Separator sep) (hl : s.Readable symbols e.lhs)
    (hr : s.Readable symbols e.rhs) : ∃ text read, e.print symbols s sep = .ok text ∧
      symbols.readEquation text = .ok read ∧ s.ReturnsEquation symbols sep e text read := by
  obtain ⟨a, b, printed, printed', together, reads⟩ := SymbolTable.readEquation_print sign hl.readable hr.readable
  refine ⟨_, _, together, reads, rfl, rfl, rfl, ⟨a, b, ?_, ?_, rfl⟩, ?_, ?_⟩
  · exact (printWith_numberBy fun _ => mem_occurrencesBoth_left).trans printed
  · exact (printWith_numberBy fun _ => mem_occurrencesBoth_right).trans printed'
  · exact Equation.ofTerms_spec wf (numberBy_over hl.readable).full (numberBy_over hr.readable).full
  · intro order
    change Equation.ofTerms (numberPair (e.terms s)).1 (numberPair (e.terms s)).2 s = (e, s)
    rw [numberPair_of_inOrder order]
    exact ofTerms_of_means wf (hl.means hr)

theorem stored_numberPair {es : List Equation} (wf : s.WellFormed)
    (readable : ∀ e ∈ es, s.Readable symbols e.lhs ∧ s.Readable symbols e.rhs) :
    s.Ensures (Equation.listOfTerms (es.map fun e => numberPair (e.terms s))) fun ds s' =>
      List.Forall₂ (fun e d => s'.Means d (numberPair (e.terms s)) ∧
        (InOrder (occurrencesBoth (e.terms s)) → d = e)) es ds := by
  have full : ∀ c ∈ es.map fun e => numberPair (e.terms s), c.1.Over .full ∧ c.2.Over .full := by
    intro c hc
    obtain ⟨e, he, rfl⟩ := List.mem_map.1 hc
    obtain ⟨hl, hr⟩ := readable e he
    exact ⟨(numberBy_over hl.readable).full, (numberBy_over hr.readable).full⟩
  refine (Equation.listOfTerms_means wf full).mono fun ds s' wf' le all => ?_
  have both := List.forall₂_and_left _ _ |>.2 ⟨readable, List.forall₂_map_left_iff.1 all⟩
  refine both.imp ?_
  rintro e d ⟨⟨hl, hr⟩, means⟩
  refine ⟨means, fun order => ?_⟩
  rw [numberPair_of_inOrder order] at means
  exact Equation.means_inj means (Equation.means_mono (hl.means hr) wf wf' le) wf'

/-- What is printed is read as the same term, equation or list of equations, with the variables numbered in the
order in which they first occur; what was numbered in this way is found in the store. -/
theorem print_read_inverse (wf : s.WellFormed) (symbols : SymbolTable) :
    (∀ r, s.Readable symbols r → ∃ text read, (s.term r).print symbols = .ok text ∧
      symbols.readTerm text = .ok read ∧ s.Returns symbols r text read) ∧
    (∀ sep e, Separator sep → s.Readable symbols e.lhs → s.Readable symbols e.rhs → ∃ text read,
      e.print symbols s sep = .ok text ∧ symbols.readEquation text = .ok read ∧
      s.ReturnsEquation symbols sep e text read) ∧
    ∀ (es : List Equation) (texts : List String) (tail : String),
      (∀ e ∈ es, s.Readable symbols e.lhs ∧ s.Readable symbols e.rhs) →
      List.Forall₂ (fun e text => ∃ sep, Separator sep ∧ e.print symbols s sep = .ok text) es texts →
      tail = "" ∨ tail = "\n" →
      symbols.readEquations ("\n".intercalate texts ++ tail) =
        .ok (es.map fun e => numberPair (e.terms s), symbols) ∧
      s.Ensures (Equation.listOfTerms (es.map fun e => numberPair (e.terms s))) fun ds s' =>
        List.Forall₂ (fun e d => s'.Means d (numberPair (e.terms s)) ∧
          (InOrder (occurrencesBoth (e.terms s)) → d = e)) es ds := by
  refine ⟨fun r h => h.returns wf, fun sep e sign hl hr => hl.returnsEquation wf sign hr, ?_⟩
  intro es texts tail readable printed ends
  refine ⟨?_, stored_numberPair wf readable⟩
  have sides : ∀ c ∈ es.map (Equation.terms s), c.1.Over (.readable symbols) ∧ c.2.Over (.readable symbols) := by
    intro c hc
    obtain ⟨e, he, rfl⟩ := List.mem_map.1 hc
    exact ⟨(readable e he).1.readable, (readable e he).2.readable⟩
  rw [SymbolTable.readEquations_print sides (List.forall₂_map_left_iff.2 printed) ends, List.map_map]
  rfl

/-- A table with two names. -/
def pairing : SymbolTable := ⟨["f", "c"], by decide⟩

/-- A term with variables that are not numbered in the order in which they occur. -/
def unorderedTerm : Term := .app (.symbol ⟨0⟩) [.var 5, .app (.symbol ⟨1⟩) [], .var 2, .var 5]

def unordered : Store := (Equation.ofTerms unorderedTerm (.var 0) .empty).2

theorem pairing_readable (f : Symbol) (known : f.index < 2) (n : Nat) : Signature.readable pairing (.symbol f) n :=
  Signature.readable_of_names (by decide) known

theorem unorderedConstant_over : (Term.app (.symbol ⟨1⟩) []).Over (.readable pairing) :=
  .app (pairing_readable _ (by decide) _) nofun

theorem unorderedTerm_over : unorderedTerm.Over (.readable pairing) := by
  refine .app (pairing_readable _ (by decide) _) ?_
  simp only [List.forall_mem_cons]
  exact ⟨.var 5, unorderedConstant_over, .var 2, .var 5, nofun⟩

theorem unordered_readable :
    unordered.Readable pairing 1 ∧ unordered.Readable pairing 3 ∧ unordered.Readable pairing 4 :=
  ⟨⟨by decide, unorderedConstant_over⟩, ⟨by decide, unorderedTerm_over⟩, ⟨by decide, .var 0⟩⟩

theorem print_read_inverse_unordered : unordered.WellFormed ∧
    (∃ read, pairing.readTerm "(f $5 c $2 $5)" = .ok read ∧ read.varNames = ["5", "2"] ∧
      unordered.Returns pairing 3 "(f $5 c $2 $5)" read) ∧
    (∃ read, pairing.readEquation "(f $5 c $2 $5) -> $0" = .ok read ∧ read.varNames = ["5", "2", "0"] ∧
      unordered.ReturnsEquation pairing "->" ⟨3, 4⟩ "(f $5 c $2 $5) -> $0" read) ∧
    pairing.readEquations "(f $5 c $2 $5) -> $0\n$0 = c" = .ok
      ([(.app (.symbol ⟨0⟩) [.var 0, .app (.symbol ⟨1⟩) [], .var 1, .var 0], .var 2),
        (.var 0, .app (.symbol ⟨1⟩) [])], pairing) := by
  obtain ⟨constant, applied, plain⟩ := unordered_readable
  have wf : unordered.WellFormed := (Equation.ofTerms_spec empty_wellFormed unorderedTerm_over.full (.var 0)).1
  obtain ⟨terms, equations, lists⟩ := print_read_inverse wf pairing
  have text : (unordered.term 3).print pairing = .ok "(f $5 c $2 $5)" := by rfl
  have line : Equation.print pairing unordered "->" ⟨3, 4⟩ = .ok "(f $5 c $2 $5) -> $0" := by rfl
  refine ⟨wf, ?_, ?_, ?_⟩
  · obtain ⟨text', read, printed, reads, returns⟩ := terms 3 applied
    obtain rfl := Except.ok.inj (printed.symm.trans text)
    exact ⟨read, reads, returns.varNames.trans (by decide), returns⟩
  · obtain ⟨text', read, printed, reads, returns⟩ := equations "->" ⟨3, 4⟩ (.inr rfl) applied plain
    obtain rfl := Except.ok.inj (printed.symm.trans line)
    exact ⟨read, reads, returns.varNames.trans (by decide), returns⟩
  · refine (lists [⟨3, 4⟩, ⟨4, 1⟩] ["(f $5 c $2 $5) -> $0", "$0 = c"] "" ?_ ?_ (.inl rfl)).1.trans ?_
    · simp only [List.forall_mem_cons]
      exact ⟨⟨applied, plain⟩, ⟨plain, constant⟩, nofun⟩
    · exact .cons ⟨"->", .inr rfl, line⟩ (.cons ⟨"=", .inl rfl, rfl⟩ .nil)
    · rfl

end Store
end OrderedCompletion
