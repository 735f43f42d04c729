import OrderedCompletion.Proofs.Boundaries
import OrderedCompletion.Proofs.Console

/-! Commands that fail. A command that checks what it is told checks it before it changes anything, and a file adds
all of its equations or none. -/

namespace OrderedCompletion

namespace Reader

variable {lines : List (List Char)} {line : List Char} {offset : Nat} {es : List (Expr × Expr)} {e : Expr × Expr}

instance : DecidablePred Vacant := fun _ => inferInstanceAs (Decidable (_ = true))

/-- The equations are those of the lines, in order; vacant lines have none. -/
def EquationLines (lines : List (List Char)) (es : List (Expr × Expr)) : Prop :=
  List.Forall₂ (fun line e => equationExpr (body line) = .ok e) (lines.filter fun line => ¬ Vacant line) es

theorem EquationLines.skip (vacant : Vacant line) : EquationLines (line :: lines) es ↔ EquationLines lines es := by
  rw [EquationLines, List.filter_cons_of_neg (by simpa using vacant), EquationLines]

theorem EquationLines.cons (shown : ¬ Vacant line) : EquationLines (line :: lines) (e :: es) ↔
    equationExpr (body line) = .ok e ∧ EquationLines lines es := by
  rw [EquationLines, List.filter_cons_of_pos (by simpa using shown), List.forall₂_cons, EquationLines]

theorem equationLines_of_read (h : equationExprs offset lines = .ok es) : EquationLines lines es := by
  induction lines generalizing offset es with
  | nil =>
      cases h
      exact .nil
  | cons line lines ih =>
      rw [equationExprs] at h
      split at h
      · rename_i vacant
        exact (EquationLines.skip vacant).2 (ih h)
      · rename_i shown
        split at h
        · cases h
        · rename_i e read
          obtain ⟨rest, others, done⟩ := bind_eq_ok_iff.1 h
          cases done
          exact (EquationLines.cons shown).2 ⟨read, ih others⟩

/-- If there is nothing wrong with any line, the lines are read. -/
theorem exists_equationExprs (clean : ∀ line ∈ lines, Clean line) (offset : Nat) :
    ∃ es, equationExprs offset lines = .ok es := by
  cases read : equationExprs offset lines with
  | ok es => exact ⟨es, rfl⟩
  | error e =>
      obtain ⟨before, bad, after, e', rfl, -, shown, fault, -⟩ := rejects_of_error read
      rcases clean bad (List.mem_append_right _ List.mem_cons_self) with vacant | ⟨eq, fine⟩
      · exact absurd vacant shown
      · cases fault.symm.trans fine

/-- If they are read, there is nothing wrong with any of them. -/
theorem clean_of_equationExprs (h : equationExprs offset lines = .ok es) : ∀ line ∈ lines, Clean line := by
  intro line mem
  by_cases vacant : Vacant line
  · exact .inl vacant
  · obtain ⟨e, -, read⟩ := Store.exists_of_forall₂_left (equationLines_of_read h)
      (List.mem_filter.2 ⟨mem, decide_eq_true vacant⟩)
    exact .inr ⟨e, read⟩

end Reader

namespace Command

/-- Commands that change axioms or settings only after a check of what they are told, and words that are none. -/
def Guarded : Command → Prop
  | assume _ | load _ | order _ | precedence _ | unfailing _ | steps _ | unknown _ => True
  | _ => False

/-- Queries and counts that cannot be read. -/
def Unreadable (table : SymbolTable) : Command → Prop
  | normalForm text | reduce text => ∃ e, table.readTerm text = .error e
  | equal text => ∃ e, table.readEquation text = .error e
  | step arg => arg ≠ "" ∧ readCount? arg = Option.none
  | _ => False

end Command

namespace Console

open Reader Engine

variable {c c' : Console} {readFile : String → Except FileError String} {text path arg : String} {command : Command}
variable {out : Reply × Console}

/-- The same axioms, settings and run. -/
structure Unaltered (c c' : Console) : Prop where
  axioms : c'.axioms = c.axioms
  order : c'.order = c.order
  precedence : c'.precedence = c.precedence
  config : c'.config = c.config
  run : c'.run = c.run

theorem Unaltered.refl (c : Console) : Unaltered c c := ⟨rfl, rfl, rfl, rfl, rfl⟩

/-- If the answer is an error, the console is as it was. -/
def Refuses (c : Console) (out : Reply × Console) : Prop := ∀ message, out.1 = .error message → Unaltered c out.2

/-- Names and terms that become known are none of these. -/
theorem unaltered_keep (c : Console) (pieces : List Piece) : Unaltered c (c.keep pieces) := ⟨rfl, rfl, rfl, rfl, rfl⟩

theorem Unaltered.trans {c'' : Console} (h : Unaltered c c') (h' : Unaltered c' c'') : Unaltered c c'' where
  axioms := h'.axioms.trans h.axioms
  order := h'.order.trans h.order
  precedence := h'.precedence.trans h.precedence
  config := h'.config.trans h.config
  run := h'.run.trans h.run

theorem unaltered_keepAll (c : Console) (lines : List (List Piece)) : Unaltered c (c.keepAll lines) := by
  induction lines generalizing c with
  | nil => exact .refl c
  | cons pieces lines ih => exact (unaltered_keep c pieces).trans (ih (c.keep pieces))

theorem refuses_error (message : String) : c.Refuses (.error message, c) := fun _ _ => .refl c

theorem refuses_unread (message : String) (pieces : List Piece) : c.Refuses (.error message, c.keep pieces) :=
  fun _ _ => unaltered_keep c pieces

theorem refuses_text (text : String) (c' : Console) : c.Refuses (.text text, c') := nofun

theorem addAxiom_refuses (text : String) : c.Refuses (c.addAxiom text) := by
  rw [addAxiom]
  split
  · exact refuses_unread _ _
  · exact refuses_text _ _

theorem load_refuses (path : String) : c.Refuses (c.load readFile path) := by
  rw [load]
  split
  · exact refuses_error _
  split
  · exact refuses_error _
  split
  · exact fun _ _ => unaltered_keepAll c _
  · exact refuses_text _ _

theorem setOrder_refuses (arg : String) : c.Refuses (c.setOrder arg) := by
  unfold setOrder
  split
  · exact refuses_text _ _
  · exact refuses_text _ _
  · exact refuses_error _

theorem setPrecedence_refuses (arg : String) : c.Refuses (c.setPrecedence arg) := by
  rw [setPrecedence]
  split
  · exact refuses_error _
  · exact refuses_text _ _

theorem setUnfailing_refuses (arg : String) : c.Refuses (c.setUnfailing arg) := by
  unfold setUnfailing
  dsimp only
  split
  · exact refuses_text _ _
  · exact refuses_text _ _
  · exact refuses_error _

theorem setSteps_refuses (arg : String) : c.Refuses (c.setSteps arg) := by
  rw [setSteps]
  dsimp only
  split
  · exact refuses_text _ _
  split
  · exact refuses_text _ _
  · exact refuses_error _

/-- One case for each command that is guarded. -/
theorem execute_refuses (guarded : command.Guarded) : c.Refuses (c.execute readFile command) := by
  cases command with
  | assume text => exact addAxiom_refuses text
  | load path => exact load_refuses path
  | order arg => exact setOrder_refuses arg
  | precedence arg => exact setPrecedence_refuses arg
  | unfailing arg => exact setUnfailing_refuses arg
  | steps arg => exact setSteps_refuses arg
  | unknown word => exact refuses_error _
  | _ => exact guarded.elim

theorem termQuery_unreadable {e : ParseError} {action : Context → Ref → EngineM Ref}
    (fault : c.symbols.readTerm text = .error e) :
    c.termQuery text action = (.error e.message, c.keep (textPieces text.toList)) := by
  rw [termQuery, fault]

theorem equal_unreadable {e : ParseError} (fault : c.symbols.readEquation text = .error e) :
    c.equal text = (.error e.message, c.keep (equationPieces text.toList)) := by
  rw [Console.equal, fault]

theorem step_unreadable (given : arg ≠ "") (noCount : readCount? arg = none) :
    c.step arg = (.error (badCount "step"), c) := by
  have shown : ¬ arg.isEmpty = true := fun empty => given (String.isEmpty_iff.1 empty)
  rw [step, if_neg shown, noCount]

/-- What cannot be read is answered with an error, before there is a run. -/
theorem execute_unreadable (unreadable : command.Unreadable c.symbols) :
    ∃ message pieces, c.execute readFile command = (.error message, c.keep pieces) := by
  cases command with
  | normalForm text =>
      obtain ⟨e, fault⟩ := unreadable
      exact ⟨_, _, termQuery_unreadable fault⟩
  | reduce text =>
      obtain ⟨e, fault⟩ := unreadable
      exact ⟨_, _, termQuery_unreadable fault⟩
  | equal text =>
      obtain ⟨e, fault⟩ := unreadable
      exact ⟨_, _, equal_unreadable fault⟩
  | step arg => exact ⟨_, [], step_unreadable unreadable.1 unreadable.2⟩
  | _ => exact unreadable.elim

/-! ### Files -/

/-- The axioms have grown by the equations of all lines. -/
structure Loaded (c : Console) (content : String) (c' : Console) (es : List (Expr × Expr)) (added : List Equation) :
    Prop where
  lines : EquationLines (Text.linesWithEnds content.toList) es
  means : List.Forall₂ (fun d eq => c'.store.Means eq d) (c.symbols.equationsOf es).1 added
  axioms : c'.axioms = c.axioms ++ added

/-- There is nothing wrong with the file that a path leads to. -/
def Readable (readFile : String → Except FileError String) (path content : String) : Prop :=
  path ≠ "" ∧ readFile path = .ok content ∧ ∀ line ∈ Text.linesWithEnds content.toList, Clean line

/-- Every line of the file can be read, and all its equations are added; or it is refused. -/
theorem load_all_or_none (sound : Sound c) (path : String) :
    (∃ content es added text, Readable readFile path content ∧ (c.load readFile path).1 = .text text ∧
      Loaded c content (c.load readFile path).2 es added) ∨
    (∀ content, ¬ Readable readFile path content) ∧
      ∃ message lines, c.load readFile path = (.error message, c.keepAll lines) := by
  rw [load]
  split
  · rename_i empty
    exact .inr ⟨fun _ fine => fine.1 (String.isEmpty_iff.1 empty), _, [], rfl⟩
  rename_i given
  split
  · rename_i e unread
    refine .inr ⟨fun _ fine => ?_, _, [], rfl⟩
    cases unread.symm.trans fine.2.1
  rename_i content found
  split
  · rename_i e fault
    refine .inr ⟨fun content' fine => ?_, _, _, rfl⟩
    obtain rfl := Except.ok.inj (found.symm.trans fine.2.1)
    obtain ⟨es, read⟩ := exists_equationExprs fine.2.2 0
    rw [SymbolTable.readEquations, read] at fault
    cases fault
  · rename_i pairs symbols read
    obtain ⟨-, -, means⟩ := Equation.listOfTerms_means sound.wellFormed (SymbolTable.readEquations_over read)
    obtain ⟨es, written, done⟩ := bind_eq_ok_iff.1 read
    have same : c.symbols.equationsOf es = (pairs, symbols) := Except.ok.inj done
    refine .inl ⟨content, es, _, _, ⟨?_, found, clean_of_equationExprs written⟩, rfl, equationLines_of_read written,
      ?_, rfl⟩
    · exact fun empty => given (String.isEmpty_iff.2 empty)
    · rw [same]
      exact means

/-- A guarded command that fails leaves axioms, settings and the run as they were. A file adds the equations of all
its lines, or something is wrong with it and it adds none. Queries and counts that cannot be read fail and change
nothing either. -/
theorem failed_commands_change_nothing (readFile : String → Except FileError String) (c : Console) (line : String) :
    ((Command.ofLine line).Guarded → ∀ message, (c.answer readFile line).1 = .error message →
      Unaltered c (c.answer readFile line).2) ∧
    ((Command.ofLine line).Unreadable c.symbols → ∃ message, (c.answer readFile line).1 = .error message ∧
      Unaltered c (c.answer readFile line).2) ∧
    (Opened c → ∀ path, Command.ofLine line = .load path →
      (∃ content es added text, Readable readFile path content ∧ (c.answer readFile line).1 = .text text ∧
        Loaded c content (c.answer readFile line).2 es added) ∨
      (∀ content, ¬ Readable readFile path content) ∧
        ∃ message, (c.answer readFile line).1 = .error message ∧ Unaltered c (c.answer readFile line).2) := by
  refine ⟨execute_refuses, fun unreadable => ?_, fun opened path loads => ?_⟩
  · obtain ⟨message, pieces, failed⟩ : ∃ message pieces, c.execute readFile _ = (.error message, c.keep pieces) :=
      execute_unreadable unreadable
    rw [answer, failed]
    exact ⟨message, rfl, unaltered_keep c pieces⟩
  · rw [answer, loads]
    rcases load_all_or_none opened.sound path with all | ⟨bad, message, lines, failed⟩
    · exact .inl all
    · refine .inr ⟨bad, message, ?_⟩
      rw [execute, failed]
      exact ⟨rfl, unaltered_keepAll c lines⟩

/-- One file, with an equation on its first line and half a term on the second one. -/
def halfFile (_ : String) : Except FileError String := .ok "a = b\n(b\n"

/-- A console with an axiom and a complete run. -/
def settled : Console := ((({} : Console).answer halfFile "(f a) = b").2.answer halfFile "complete").2

theorem failed_commands_change_nothing_settled :
    (∃ run, settled.run = some run ∧ run.engine.rules.length = 1) ∧
    Unaltered settled (settled.answer halfFile "(f a = b").2 ∧
    Unaltered settled (settled.answer halfFile "reduce (f").2 ∧
    Unaltered settled (settled.answer halfFile "load half").2 := by
  have opened : Opened settled := .line halfFile _ (.line halfFile _ .new)
  refine ⟨?_, ?_, ?_, ?_⟩
  · have rules : (settled.run.map fun run => run.engine.rules.length) = some 1 := by decide +kernel
    exact Option.map_eq_some_iff.1 rules
  · have line : Command.ofLine "(f a = b" = .assume "(f a = b" := by decide +kernel
    refine (failed_commands_change_nothing halfFile settled "(f a = b").1 (line ▸ trivial)
      "Parse error at position 5: Unexpected character: '='" ?_
    decide +kernel
  · have line : Command.ofLine "reduce (f" = .reduce "(f" := by decide +kernel
    have fault : settled.symbols.readTerm "(f" = .error ⟨.unclosed, 0⟩ := by rfl
    obtain ⟨_, -, same⟩ := (failed_commands_change_nothing halfFile settled "reduce (f").2.1 (line ▸ ⟨_, fault⟩)
    exact same
  · have line : Command.ofLine "load half" = .load "half" := by decide +kernel
    have failed : (settled.answer halfFile "load half").1 =
        .error "Parse error in 'half': Parse error at position 6: Unclosed parenthesis" := by decide +kernel
    rcases (failed_commands_change_nothing halfFile settled "load half").2.2 opened "half" line with
      ⟨_, _, _, _, -, told, -⟩ | ⟨-, _, -, same⟩
    · cases failed.symm.trans told
    · exact same

end Console
end OrderedCompletion
