import OrderedCompletion.Proofs.Grammar

/-! Where the reader stands, and where it reports what is wrong: at points between two characters of the text. A
fault in a list of equations is reported within the first line that cannot be read. -/

namespace OrderedCompletion

namespace Text

variable {as bs cs : List Char} {i : Nat}

theorem byteCount_append (as bs : List Char) : byteCount (as ++ bs) = byteCount as + byteCount bs := by
  induction as with
  | nil => rw [List.nil_append, byteCount, Nat.zero_add]
  | cons c as ih => rw [List.cons_append, byteCount, byteCount, ih, Nat.add_assoc]

theorem byteCount_toList (text : String) : byteCount text.toList = text.utf8ByteSize := by
  have counted : ∀ cs, (String.ofList cs).utf8ByteSize = byteCount cs := by
    intro cs
    induction cs with
    | nil => rfl
    | cons c cs ih =>
        rw [← List.singleton_append, String.ofList_append, String.utf8ByteSize_append, ih, List.singleton_append,
          byteCount, ← String.singleton_eq_ofList, String.utf8ByteSize_singleton]
  rw [← counted, String.ofList_toList]

/-- So many bytes are before some point between two characters, or at an end. -/
def Boundary (cs : List Char) (i : Nat) : Prop := ∃ before after, cs = before ++ after ∧ i = byteCount before

theorem Boundary.le (h : Boundary cs i) : i ≤ byteCount cs := by
  obtain ⟨before, after, rfl, rfl⟩ := h
  rw [byteCount_append]
  exact Nat.le_add_right _ _

/-- A point of a part is a point of the whole. -/
theorem Boundary.within (h : Boundary bs i) (as cs : List Char) : Boundary (as ++ bs ++ cs) (byteCount as + i) := by
  obtain ⟨before, after, rfl, rfl⟩ := h
  exact ⟨as ++ before, after ++ cs, by simp only [List.append_assoc], (byteCount_append as before).symm⟩

theorem Boundary.isValid {text : String} (h : Boundary text.toList i) : String.Pos.Raw.IsValid text ⟨i⟩ := by
  obtain ⟨before, after, split, rfl⟩ := h
  refine String.Pos.Raw.isValid_iff_exists_append.2 ⟨String.ofList before, String.ofList after, ?_, ?_⟩
  · rw [← String.ofList_append, ← split, String.ofList_toList]
  · rw [String.Pos.Raw.ext_iff, String.byteIdx_rawEndPos, ← byteCount_toList, String.toList_ofList]

theorem linesWithEnds_flatten (cs : List Char) : (linesWithEnds cs).flatten = cs := by
  induction cs with
  | nil => rfl
  | cons c cs ih =>
      rw [linesWithEnds]
      split
      · rw [List.flatten_cons, ih, List.singleton_append]
      · split
        · rename_i line rest same
          rw [same] at ih
          rw [List.flatten_cons, List.cons_append, ← List.flatten_cons, ih]
        · rename_i none
          rw [none] at ih
          rw [← ih, List.flatten_nil, List.flatten_singleton]

end Text

namespace Reader

open Text

variable {cs mid rest line : List Char} {cur : Cursor} {α β : Type} {pos n : Nat} {c : Char}

/-- The cursor is at a point of the text. -/
def Cursor.In (cur : Cursor) (cs : List Char) : Prop := ∃ before, cs = before ++ cur.rest ∧ cur.pos = byteCount before

theorem Cursor.In.boundary (h : cur.In cs) : Boundary cs cur.pos := by
  obtain ⟨before, split, count⟩ := h
  exact ⟨before, cur.rest, split, count⟩

theorem Cursor.in_start (cs : List Char) : Cursor.In ⟨0, cs⟩ cs := ⟨[], rfl, rfl⟩

theorem Cursor.In.move (h : Cursor.In ⟨pos, mid ++ rest⟩ cs) : Cursor.In ⟨pos + byteCount mid, rest⟩ cs := by
  obtain ⟨before, split, rfl⟩ := h
  refine ⟨before ++ mid, ?_, (byteCount_append before mid).symm⟩
  rw [split, List.append_assoc]

theorem Cursor.In.next (h : Cursor.In ⟨pos, c :: rest⟩ cs) : Cursor.In ⟨pos + c.utf8Size, rest⟩ cs := by
  have h : Cursor.In ⟨pos, [c] ++ rest⟩ cs := h
  exact h.move

/-! ### One byte at a time -/

theorem utf8Size_of_toNat (h : c.toNat < 128) : c.utf8Size = 1 :=
  Char.utf8Size_eq_one_iff.2 (UInt32.le_iff_toNat_le.2 (Nat.le_of_lt_succ h))

theorem toNat_of_blank (h : isBlank c = true) : c.toNat < 128 := by
  have signs : c = ' ' ∨ c = '\t' ∨ c = '\n' ∨ c = '\x0c' ∨ c = '\r' := by simpa [isBlank, or_assoc] using h
  rcases signs with rfl | rfl | rfl | rfl | rfl <;> decide

theorem toNat_of_le {d : Char} (le : c.val ≤ d.val) (low : d.toNat < 128) : c.toNat < 128 :=
  Nat.lt_of_le_of_lt (UInt32.le_iff_toNat_le.1 le) low

theorem toNat_of_name (h : isNameChar c = true) : c.toNat < 128 := by
  rcases Bool.or_eq_true_iff.1 h with letter | sign
  · rcases Bool.or_eq_true_iff.1 letter with letter | digit
    · rcases Bool.or_eq_true_iff.1 letter with upper | lower
      · have last : c.val ≤ 'Z'.val := (of_decide_eq_true upper).2
        exact toNat_of_le last (by decide)
      · have last : c.val ≤ 'z'.val := of_decide_eq_true (Bool.and_eq_true_iff.1 lower).2
        exact toNat_of_le last (by decide)
    · have last : c.val ≤ '9'.val := of_decide_eq_true (Bool.and_eq_true_iff.1 digit).2
      exact toNat_of_le last (by decide)
  · have mem := List.contains_iff_mem.1 sign
    have all : "_*+/^~'.!?<&|".toList.all (fun d => decide (d.toNat < 128)) = true := by decide
    exact of_decide_eq_true (List.all_eq_true.1 all c mem)

theorem byteCount_of_names (h : ∀ d ∈ cs, isNameChar d = true) : byteCount cs = cs.length := by
  induction cs with
  | nil => rfl
  | cons c cs ih =>
      rw [byteCount, List.length_cons, utf8Size_of_toNat (toNat_of_name (h c List.mem_cons_self)),
        ih fun d hd => h d (List.mem_cons_of_mem c hd), Nat.add_comm]

/-! ### What each part of the reader keeps -/

mutual
theorem skipBlank_in {cs : List Char} (pos : Nat) (rest : List Char) (h : Cursor.In ⟨pos, rest⟩ cs) :
    (skipBlank pos rest).In cs := by
  cases rest with
  | nil =>
      rw [skipBlank]
      exact h
  | cons c rest =>
      rw [skipBlank]
      split
      · rename_i blank
        exact skipBlank_in (pos + 1) rest (utf8Size_of_toNat (toNat_of_blank blank) ▸ h.next)
      · split
        · rename_i sharp
          subst sharp
          exact skipComment_in (pos + 1) rest h.next
        · exact h

theorem skipComment_in {cs : List Char} (pos : Nat) (rest : List Char) (h : Cursor.In ⟨pos, rest⟩ cs) :
    (skipComment pos rest).In cs := by
  cases rest with
  | nil =>
      rw [skipComment]
      exact h
  | cons c rest =>
      rw [skipComment]
      split
      · rename_i line
        subst line
        exact skipBlank_in (pos + 1) rest h.next
      · exact skipComment_in (pos + c.utf8Size) rest h.next
end

theorem Cursor.In.skip (h : cur.In cs) : cur.skip.In cs := skipBlank_in cur.pos cur.rest h

/-- What is read is as it should be, and a fault is reported at a point of the text. -/
def Keeps (cs : List Char) (P : α → Prop) : Except ParseError α → Prop
  | .ok a => P a
  | .error e => Boundary cs e.position

theorem Keeps.bind {x : Except ParseError α} {f : α → Except ParseError β} {P : α → Prop} {Q : β → Prop}
    (hx : Keeps cs P x) (hf : ∀ a, P a → Keeps cs Q (f a)) : Keeps cs Q (x >>= f) := by
  cases x with
  | error e => exact hx
  | ok a => exact hf a hx

/-- Behind what is read the cursor is at a point of the text. -/
abbrev Stays (cs : List Char) (x : Except ParseError (α × Cursor)) : Prop := Keeps cs (fun out => out.2.In cs) x

theorem name_stays (h : cur.In cs) : Stays cs (name cur) := by
  rw [name]
  split
  · exact h.boundary
  · rename_i c l found
    have letters : ∀ d ∈ c :: l, isNameChar d = true := fun d hd => List.mem_takeWhile_imp (found ▸ hd)
    have split : cur.rest = (c :: l) ++ cur.rest.dropWhile isNameChar := by
      rw [← found, List.takeWhile_append_dropWhile]
    have here : Cursor.In ⟨cur.pos, (c :: l) ++ cur.rest.dropWhile isNameChar⟩ cs := split ▸ h
    exact byteCount_of_names letters ▸ here.move

/-- The induction is on the bound of the nesting; a parenthesis that is not closed is reported where it was opened. -/
theorem reading_stays (n : Nat) : (∀ cur : Cursor, cur.In cs → Stays cs (term n cur)) ∧
    ∀ (opened : Nat) (cur : Cursor), Boundary cs opened → cur.In cs → Stays cs (arguments n opened cur) := by
  induction n with
  | zero => exact ⟨fun cur h => h.boundary, fun _ _ h _ => h⟩
  | succ n ih =>
      obtain ⟨ihTerm, ihArguments⟩ := ih
      constructor
      · intro cur h
        have at_ := h.skip
        rw [term]
        dsimp only
        split
        · exact at_.boundary
        · rename_i c l here
          have at_' : Cursor.In ⟨cur.skip.pos, c :: l⟩ cs := here ▸ at_
          split
          · rename_i dollar
            subst dollar
            exact (name_stays at_'.next).bind fun out inside => inside
          split
          · rename_i open_
            subst open_
            exact (name_stays at_'.next.skip).bind fun out inside =>
              (ihArguments _ _ at_.boundary inside).bind fun out inside => inside
          split
          · exact (name_stays at_).bind fun out inside => inside
          · exact at_.boundary
      · intro opened cur start h
        have at_ := h.skip
        rw [arguments]
        dsimp only
        split
        · exact start
        · rename_i c l here
          split
          · rename_i closed
            subst closed
            have at_' : Cursor.In ⟨cur.skip.pos, ')' :: l⟩ cs := here ▸ at_
            exact at_'.next
          · exact (ihTerm _ at_).bind fun out inside =>
              (ihArguments _ _ start inside).bind fun out inside => inside

theorem term_stays (h : cur.In cs) : Stays cs (term n cur) := (reading_stays n).1 cur h

theorem finish_keeps {fault : ParseFault} (h : cur.In cs) : Keeps cs (fun _ => True) (finish fault cur) := by
  rw [finish]
  split
  · exact trivial
  · exact h.skip.boundary

theorem separator_keeps (h : cur.In cs) : Keeps cs (fun cur' => Cursor.In cur' cs) (separator cur) := by
  have at_ := h.skip
  rw [separator]
  split
  · rename_i l here
    have at_' : Cursor.In ⟨cur.skip.pos, '-' :: '>' :: l⟩ cs := here ▸ at_
    exact at_'.next.next
  · rename_i l here
    have at_' : Cursor.In ⟨cur.skip.pos, '=' :: l⟩ cs := here ▸ at_
    exact at_'.next
  · exact at_.boundary

/-! ### Whole texts -/

theorem termExpr_keeps (cs : List Char) : Keeps cs (fun _ => True) (termExpr cs) :=
  (term_stays (Cursor.in_start cs)).bind fun _ inside => (finish_keeps inside).bind fun _ _ => trivial

theorem equationExpr_keeps (cs : List Char) : Keeps cs (fun _ => True) (equationExpr cs) :=
  (term_stays (Cursor.in_start cs)).bind fun _ inside => (separator_keeps inside).bind fun _ inside =>
    (term_stays inside).bind fun _ inside => (finish_keeps inside).bind fun _ _ => trivial

/-- The line has nothing but white space and a comment. -/
def Vacant (line : List Char) : Prop := (Text.trim (body line)).isEmpty = true

/-- The line is passed over or read. -/
def Clean (line : List Char) : Prop := Vacant line ∨ ∃ e, equationExpr (body line) = .ok e

/-- The line is the first one that cannot be read, and the fault is the one that it has by itself, with a position
that counts from the beginning of all lines. The position may be the end of the line. -/
structure FirstFault (lines before : List (List Char)) (line : List Char) (e : ParseError) : Prop where
  split : ∃ after, lines = before ++ line :: after
  clean : ∀ l ∈ before, Clean l
  faulty : ¬ Clean line
  alone : ∃ e', equationExpr (body line) = .error e' ∧ e = ⟨e'.fault, byteCount before.flatten + e'.position⟩
  start_le : byteCount before.flatten ≤ e.position
  le_end : e.position ≤ byteCount before.flatten + byteCount line

/-- Behind clean lines is one with a fault by itself; so many bytes are before all lines. -/
def Rejects (offset : Nat) (lines : List (List Char)) (e : ParseError) : Prop :=
  ∃ before line after e', lines = before ++ line :: after ∧ (∀ l ∈ before, Clean l) ∧ ¬ Vacant line ∧
    equationExpr (body line) = .error e' ∧ e = ⟨e'.fault, offset + byteCount before.flatten + e'.position⟩

theorem Rejects.cons {lines : List (List Char)} {offset : Nat} {e : ParseError} (clean : Clean line)
    (h : Rejects (offset + byteCount line) lines e) : Rejects offset (line :: lines) e := by
  obtain ⟨before, bad, after, e', rfl, cleans, shown, fault, rfl⟩ := h
  refine ⟨line :: before, bad, after, e', rfl, fun l hl => ?_, shown, fault, ?_⟩
  · rcases List.mem_cons.1 hl with rfl | hl
    · exact clean
    · exact cleans l hl
  · rw [List.flatten_cons, byteCount_append, Nat.add_assoc offset]

theorem rejects_of_error {lines : List (List Char)} {offset : Nat} {e : ParseError}
    (h : equationExprs offset lines = .error e) : Rejects offset lines e := by
  induction lines generalizing offset with
  | nil => cases h
  | cons line lines ih =>
      rw [equationExprs] at h
      split at h
      · rename_i vacant
        exact (ih h).cons (.inl vacant)
      · rename_i shown
        split at h
        · rename_i e' fault
          cases h
          exact ⟨[], line, lines, e', rfl, nofun, shown, fault, rfl⟩
        · rename_i eq read
          cases rest : equationExprs (offset + byteCount line) lines with
          | ok es =>
              rw [rest] at h
              cases h
          | error e' =>
              rw [rest] at h
              cases h
              exact (ih rest).cons (.inr ⟨eq, read⟩)

theorem exists_firstFault {cs : List Char} {e : ParseError} (h : equationExprs 0 (linesWithEnds cs) = .error e) :
    Boundary cs e.position ∧ ∃ before line, FirstFault (linesWithEnds cs) before line e := by
  obtain ⟨before, line, after, e', split, clean, shown, fault, rfl⟩ := rejects_of_error h
  have inside : Boundary (body line) e'.position := by
    have keeps := equationExpr_keeps (body line)
    rwa [fault] at keeps
  have cut : line = body line ++ line.dropWhile (· ≠ '#') := List.takeWhile_append_dropWhile.symm
  have whole : cs = before.flatten ++ body line ++ (line.dropWhile (· ≠ '#') ++ after.flatten) := by
    rw [← linesWithEnds_flatten cs, split, List.flatten_append, List.flatten_cons, List.append_assoc,
      ← List.append_assoc (body line), ← cut]
  have short : e'.position ≤ byteCount line := by
    rw [cut, byteCount_append]
    exact inside.le.trans (Nat.le_add_right _ _)
  refine ⟨?_, before, line, ⟨after, split⟩, clean, ?_, ⟨e', fault, ?_⟩, ?_, ?_⟩
  · rw [Nat.zero_add]
    exact whole ▸ inside.within _ _
  · rintro (vacant | ⟨eq, read⟩)
    · exact shown vacant
    · rw [fault] at read
      cases read
  · rw [Nat.zero_add]
  · rw [Nat.zero_add]
    exact Nat.le_add_right _ _
  · rw [Nat.zero_add]
    exact Nat.add_le_add_left short _

end Reader
end OrderedCompletion
