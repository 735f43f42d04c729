import OrderedCompletion.Proofs.Refusals

/-! Lines that begin with no command. One is taken as an axiom if it has an equality sign somewhere, so a line that
is an equation with an arrow is not. -/

namespace OrderedCompletion

namespace Reader

variable {cs rest sign : List Char} {e l r : Expr} {es : List Expr} {x : String}

/-! ### What is left of a text is its end -/

theorem Comment.suffix (h : Comment cs rest) : rest <:+ cs := by
  induction h with
  | char _ _ ih => exact ih.trans (List.suffix_cons _ _)
  | line => exact List.suffix_cons _ _
  | last => exact List.suffix_refl _

theorem Gap.suffix (h : Gap cs rest) : rest <:+ cs := by
  induction h with
  | nil => exact List.suffix_refl _
  | blank _ _ ih => exact ih.trans (List.suffix_cons _ _)
  | comment comment _ ih => exact (ih.trans comment.suffix).trans (List.suffix_cons _ _)

theorem Names.suffix (h : Names x cs rest) : rest <:+ cs := ⟨x.toList, h.split.symm⟩

mutual
theorem Spells.suffix {e : Expr} {cs rest : List Char} (h : Spells e cs rest) : rest <:+ cs := by
  cases h with
  | var names => exact names.suffix.trans (List.suffix_cons _ _)
  | constant names => exact names.suffix
  | app gap names args =>
      exact (((SpellsAll.suffix args).trans names.suffix).trans gap.suffix).trans (List.suffix_cons _ _)

theorem SpellsAll.suffix {es : List Expr} {cs rest : List Char} (h : SpellsAll es cs rest) : rest <:+ cs := by
  cases h with
  | close gap => exact (List.suffix_cons _ _).trans gap.suffix
  | cons gap first others =>
      exact ((SpellsAll.suffix others).trans (Spells.suffix first)).trans gap.suffix
end

/-- The text is an equation with this sign between its sides. -/
def SignedText (sign : List Char) (l r : Expr) (cs : List Char) : Prop :=
  ∃ cs₁ cs₂ cs₄ cs₅ cs₆, Gap cs cs₁ ∧ Spells l cs₁ cs₂ ∧ Gap cs₂ (sign ++ cs₄) ∧ Gap cs₄ cs₅ ∧ Spells r cs₅ cs₆ ∧
    Gap cs₆ []

theorem equationText_iff :
    EquationText l r cs ↔ SignedText ['='] l r cs ∨ SignedText ['-', '>'] l r cs := by
  constructor
  · rintro ⟨cs₁, cs₂, cs₃, cs₄, cs₅, cs₆, before, left, gap, sign, gap', right, behind⟩
    cases sign with
    | equal => exact .inl ⟨cs₁, cs₂, cs₄, cs₅, cs₆, before, left, gap, gap', right, behind⟩
    | arrow => exact .inr ⟨cs₁, cs₂, cs₄, cs₅, cs₆, before, left, gap, gap', right, behind⟩
  · rintro (⟨cs₁, cs₂, cs₄, cs₅, cs₆, before, left, gap, gap', right, behind⟩ |
      ⟨cs₁, cs₂, cs₄, cs₅, cs₆, before, left, gap, gap', right, behind⟩)
    · exact ⟨cs₁, cs₂, _, cs₄, cs₅, cs₆, before, left, gap, .equal, gap', right, behind⟩
    · exact ⟨cs₁, cs₂, _, cs₄, cs₅, cs₆, before, left, gap, .arrow, gap', right, behind⟩

theorem SignedText.subset (h : SignedText sign l r cs) : sign ⊆ cs := by
  obtain ⟨cs₁, cs₂, cs₄, _, _, before, left, gap, -⟩ := h
  have inside : sign ++ cs₄ <:+ cs := (gap.suffix.trans left.suffix).trans before.suffix
  exact List.Subset.trans (List.subset_append_left _ _) inside.subset

end Reader

namespace Command

/-- The first words that are commands. -/
def words : List String :=
  ["help", "quit", "exit", "eq", "load", "complete", "step", "show", "stats", "nf", "reduce", "equal", "order",
    "prec", "unfailing", "steps", "reset"]

theorem ofWord?_eq_none_iff {word rest : String} : ofWord? word rest = Option.none ↔ word ∉ words := by
  unfold ofWord?
  split <;> simp_all [words]

/-- The line without white space around it. -/
def trimmed (line : String) : String := String.ofList (Text.trim line.toList)

/-- A line that is not empty, no comment and begins with no command. -/
structure Bare (line : String) : Prop where
  shown : (Text.trim line.toList).isEmpty = false
  uncommented : (Text.trim line.toList).head? ≠ some '#'
  noCommand : String.ofList (Text.splitAtWhite (Text.trim line.toList)).1 ∉ words

variable {line : String}

theorem Bare.ofLine (h : Bare line) : ofLine line =
    if '=' ∈ (trimmed line).toList then .assume (trimmed line)
    else .unknown (String.ofList (Text.splitAtWhite (Text.trim line.toList)).1) := by
  have noEnd : ¬ ((Text.trim line.toList).isEmpty || (Text.trim line.toList).head? = some '#') = true := by
    rw [h.shown, Bool.false_or, decide_eq_true_eq]
    exact h.uncommented
  rw [Command.ofLine]
  dsimp only
  rw [if_neg noEnd, ofWord?_eq_none_iff.2 h.noCommand, trimmed, String.toList_ofList]
  exact if_congr List.contains_iff_mem rfl rfl

end Command

namespace Console

open Reader Command

variable {c : Console} {readFile : String → Except FileError String} {line text : String} {read : ReadEquation}
variable {out : Reply × Console}

/-- There is one axiom more, the equation that was read. -/
structure AddsOne (c : Console) (read : ReadEquation) (out : Reply × Console) : Prop where
  told : out.1 = .text ("Added axiom " ++ (c.axioms.length + 1).repr ++ ".")
  added : ∃ eq, out.2.axioms = c.axioms ++ [eq] ∧ out.2.store.Means eq (read.lhs, read.rhs)

/-- The line fails, and axioms, settings and the run are as they were. -/
def AddsNone (c : Console) (out : Reply × Console) : Prop := ∃ message, out.1 = .error message ∧ Unaltered c out.2

theorem addAxiom_eq (ok : c.symbols.readEquation text = .ok read) : c.addAxiom text =
    (.text ("Added axiom " ++ (c.axioms.length + 1).repr ++ "."),
      { c with
        symbols := read.symbols
        store := (Equation.ofTerms read.lhs read.rhs c.store).2
        axioms := c.axioms ++ [(Equation.ofTerms read.lhs read.rhs c.store).1]
        run := none }) := by
  have count : ∀ eq : Equation, (c.axioms ++ [eq]).length = c.axioms.length + 1 := fun _ => List.length_append
  rw [addAxiom, ok, ← count (Equation.ofTerms read.lhs read.rhs c.store).1]
  rfl

theorem Sound.adds_one (h : Sound c) (ok : c.symbols.readEquation text = .ok read) :
    AddsOne c read (c.addAxiom text) := by
  obtain ⟨hl, hr⟩ := SymbolTable.readEquation_over ok
  obtain ⟨-, -, means⟩ := Equation.ofTerms_spec h.wellFormed hl hr
  rw [addAxiom_eq ok]
  exact ⟨rfl, _, rfl, means⟩

theorem adds_none (fault : ∀ read, c.symbols.readEquation text ≠ .ok read) : AddsNone c (c.addAxiom text) := by
  rw [addAxiom]
  cases found : c.symbols.readEquation text with
  | error e => exact ⟨_, rfl, unaltered_keep c _⟩
  | ok read => exact absurd found (fault read)

/-- The dispatch of a bare line. -/
theorem answer_bare (bare : Bare line) : c.answer readFile line =
    if '=' ∈ (trimmed line).toList then c.addAxiom (trimmed line)
    else (.error ("Unknown command '" ++ String.ofList (Text.splitAtWhite (Text.trim line.toList)).1 ++
      "'. Type 'help' for commands."), c) := by
  rw [answer, bare.ofLine]
  split <;> rfl

/-- A line that begins with no command and has an equality sign adds one axiom, the equation that it is, if it is one,
and otherwise fails and adds none; whatever is written with an equality sign between two terms is added. A line
without an equality sign fails and adds none, also if it is an equation, which then has an arrow. -/
theorem bare_line_adds_equation (opened : Opened c) (bare : Bare line) :
    ('=' ∈ (trimmed line).toList →
      (∀ read, c.symbols.readEquation (trimmed line) = .ok read → AddsOne c read (c.answer readFile line)) ∧
      ((∀ read, c.symbols.readEquation (trimmed line) ≠ .ok read) → AddsNone c (c.answer readFile line))) ∧
    (∀ l r, SignedText ['='] l r (trimmed line).toList →
      AddsOne c (c.symbols.equationOf l r) (c.answer readFile line)) ∧
    ('=' ∉ (trimmed line).toList → AddsNone c (c.answer readFile line) ∧
      ∀ l r, EquationText l r (trimmed line).toList → SignedText ['-', '>'] l r (trimmed line).toList) := by
  have adds : '=' ∈ (trimmed line).toList → ∀ read, c.symbols.readEquation (trimmed line) = .ok read →
      AddsOne c read (c.answer readFile line) := by
    intro sign read ok
    rw [answer_bare bare, if_pos sign]
    exact opened.sound.adds_one ok
  refine ⟨fun sign => ⟨adds sign, fun fault => ?_⟩, fun l r written => ?_, fun sign => ⟨?_, fun l r written => ?_⟩⟩
  · rw [answer_bare bare, if_pos sign]
    exact adds_none fault
  · have read := equationExpr_eq_ok_iff.2 (equationText_iff.2 (.inl written))
    refine adds (written.subset List.mem_cons_self) _ ?_
    rw [SymbolTable.readEquation, read]
    rfl
  · rw [answer_bare bare, if_neg sign]
    exact ⟨_, rfl, .refl c⟩
  · exact (equationText_iff.1 written).resolve_left fun equal => sign (equal.subset List.mem_cons_self)

/-- An equation behind white space and before a comment. -/
theorem bare_line_adds_equation_commented : Bare "  (f $x)=$x # b" ∧
    AddsOne {} (SymbolTable.equationOf .empty (.app "f" [.var "x"]) (.var "x"))
      (({} : Console).answer halfFile "  (f $x)=$x # b") := by
  have bare : Bare "  (f $x)=$x # b" := ⟨by decide +kernel, by decide +kernel, by decide +kernel⟩
  have sign : '=' ∈ (trimmed "  (f $x)=$x # b").toList := by decide +kernel
  have chars : (trimmed "  (f $x)=$x # b").toList =
      ['(', 'f', ' ', '$', 'x', ')', '=', '$', 'x', ' ', '#', ' ', 'b'] := by decide +kernel
  refine ⟨bare, ((bare_line_adds_equation .new bare).1 sign).1 _ ?_⟩
  rw [SymbolTable.readEquation, chars]
  rfl

/-- An equation with an arrow is no axiom by itself. The command for axioms adds it, and so does the line if its
comment has an equality sign. -/
theorem arrow_line_refused : Opened {} ∧ Bare "a -> b" ∧ ∃ read, SymbolTable.readEquation .empty "a -> b" = .ok read ∧
    ¬ AddsOne {} read (({} : Console).answer halfFile "a -> b") ∧
    (({} : Console).answer halfFile "a -> b").1 = .error "Unknown command 'a'. Type 'help' for commands." ∧
    AddsOne {} read (({} : Console).answer halfFile "eq a -> b") ∧
    (({} : Console).answer halfFile "a -> b # =").1 = .text "Added axiom 1." := by
  have bare : Bare "a -> b" := ⟨by decide +kernel, by decide +kernel, by decide +kernel⟩
  have failed : (({} : Console).answer halfFile "a -> b").1 =
      .error "Unknown command 'a'. Type 'help' for commands." := by decide +kernel
  have command : Command.ofLine "eq a -> b" = .assume "a -> b" := by decide +kernel
  have read : SymbolTable.readEquation .empty "a -> b" =
      .ok (SymbolTable.equationOf .empty (.app "a" []) (.app "b" [])) := by
    have chars : "a -> b".toList = ['a', ' ', '-', '>', ' ', 'b'] := by decide +kernel
    rw [SymbolTable.readEquation, chars]
    rfl
  refine ⟨.new, bare, _, read, fun adds => ?_, failed, ?_, by decide +kernel⟩
  · cases failed.symm.trans adds.told
  · rw [answer, command, execute]
    exact Opened.new.sound.adds_one read

end Console
end OrderedCompletion
