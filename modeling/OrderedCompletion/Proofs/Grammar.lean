import Mathlib.Data.List.TakeWhile
import OrderedCompletion.Term.Reader

/-! The grammar of written terms and equations, and that the reader accepts what it derives and nothing else. A
relation between two texts says that the second one is left of the first one behind what it is about. -/

namespace OrderedCompletion.Reader

/-- The rest of a comment, with the end of its line. -/
inductive Comment : List Char → List Char → Prop
  | char {c : Char} {cs rest : List Char} : c ≠ '\n' → Comment cs rest → Comment (c :: cs) rest
  | line {rest : List Char} : Comment ('\n' :: rest) rest
  | last : Comment [] []

/-- Blanks and comments. -/
inductive Gap : List Char → List Char → Prop
  | nil {cs : List Char} : Gap cs cs
  | blank {c : Char} {cs rest : List Char} : isBlank c = true → Gap cs rest → Gap (c :: cs) rest
  | comment {cs cs' rest : List Char} : Comment cs cs' → Gap cs' rest → Gap ('#' :: cs) rest

/-- A name that no further character of a name follows. -/
structure Names (x : String) (cs rest : List Char) : Prop where
  split : cs = x.toList ++ rest
  nonempty : x.toList ≠ []
  chars : ∀ c ∈ x.toList, isNameChar c = true
  maximal : ∀ c ∈ rest.head?, isNameChar c = false

mutual
/-- A term. The tokens of an application may have gaps between them. -/
inductive Spells : Expr → List Char → List Char → Prop
  | var {x : String} {cs rest : List Char} : Names x cs rest → Spells (.var x) ('$' :: cs) rest
  | constant {a : String} {cs rest : List Char} : Names a cs rest → Spells (.app a []) cs rest
  | app {f : String} {args : List Expr} {cs cs₁ cs₂ rest : List Char} : Gap cs cs₁ → Names f cs₁ cs₂ →
      SpellsAll args cs₂ rest → Spells (.app f args) ('(' :: cs) rest

/-- The arguments of an application and what closes it. -/
inductive SpellsAll : List Expr → List Char → List Char → Prop
  | close {cs rest : List Char} : Gap cs (')' :: rest) → SpellsAll [] cs rest
  | cons {e : Expr} {es : List Expr} {cs cs₁ cs₂ rest : List Char} : Gap cs cs₁ → Spells e cs₁ cs₂ →
      SpellsAll es cs₂ rest → SpellsAll (e :: es) cs rest
end

/-- The text is a term with gaps around it. -/
def TermText (e : Expr) (cs : List Char) : Prop :=
  ∃ cs₁ cs₂, Gap cs cs₁ ∧ Spells e cs₁ cs₂ ∧ Gap cs₂ []

/-- The sign between the sides of an equation. -/
inductive Separates : List Char → List Char → Prop
  | equal {rest : List Char} : Separates ('=' :: rest) rest
  | arrow {rest : List Char} : Separates ('-' :: '>' :: rest) rest

/-- The text is an equation with gaps around its sides. -/
def EquationText (l r : Expr) (cs : List Char) : Prop :=
  ∃ cs₁ cs₂ cs₃ cs₄ cs₅ cs₆, Gap cs cs₁ ∧ Spells l cs₁ cs₂ ∧ Gap cs₂ cs₃ ∧ Separates cs₃ cs₄ ∧ Gap cs₄ cs₅ ∧
    Spells r cs₅ cs₆ ∧ Gap cs₆ []

variable {cs cs' rest mid : List Char} {c : Char} {cur cur' : Cursor} {x : String} {e : Expr} {es : List Expr}
variable {pos n : Nat}

/-! ### Gaps -/

/-- No gap is at the beginning of the text. -/
def Bare (cs : List Char) : Prop := ∀ c ∈ cs.head?, isBlank c = false ∧ c ≠ '#'

theorem bare_nil : Bare [] := nofun

theorem bare_cons (blank : isBlank c = false) (sharp : c ≠ '#') : Bare (c :: cs) := by
  simp [Bare, blank, sharp]

mutual
theorem skipBlank_spec (pos : Nat) (cs : List Char) :
    Gap cs (skipBlank pos cs).rest ∧ Bare (skipBlank pos cs).rest := by
  cases cs with
  | nil =>
      rw [skipBlank]
      exact ⟨.nil, bare_nil⟩
  | cons c cs =>
      rw [skipBlank]
      split
      · rename_i blank
        obtain ⟨gap, bare⟩ := skipBlank_spec (pos + 1) cs
        exact ⟨.blank blank gap, bare⟩
      · rename_i blank
        split
        · rename_i sharp
          obtain ⟨mid, comment, gap, bare⟩ := skipComment_spec (pos + 1) cs
          exact ⟨sharp ▸ .comment comment gap, bare⟩
        · rename_i sharp
          exact ⟨.nil, bare_cons (by simpa using blank) sharp⟩

theorem skipComment_spec (pos : Nat) (cs : List Char) :
    ∃ mid, Comment cs mid ∧ Gap mid (skipComment pos cs).rest ∧ Bare (skipComment pos cs).rest := by
  cases cs with
  | nil =>
      rw [skipComment]
      exact ⟨[], .last, .nil, bare_nil⟩
  | cons c cs =>
      rw [skipComment]
      split
      · rename_i line
        obtain ⟨gap, bare⟩ := skipBlank_spec (pos + 1) cs
        exact ⟨cs, line ▸ .line, gap, bare⟩
      · rename_i line
        obtain ⟨mid, comment, gap, bare⟩ := skipComment_spec (pos + c.utf8Size) cs
        exact ⟨mid, .char line comment, gap, bare⟩
end

theorem Comment.skip (h : Comment cs rest) (pos : Nat) : ∃ pos', skipComment pos cs = skipBlank pos' rest := by
  induction h generalizing pos with
  | char line _ ih =>
      rw [skipComment, if_neg line]
      exact ih _
  | line =>
      rw [skipComment, if_pos rfl]
      exact ⟨_, rfl⟩
  | last => exact ⟨pos, by rw [skipComment, skipBlank]⟩

/-- Behind a gap the reader goes on as it would from the gap on. -/
theorem Gap.skip (h : Gap cs rest) (pos : Nat) : ∃ pos', skipBlank pos cs = skipBlank pos' rest := by
  induction h generalizing pos with
  | nil => exact ⟨pos, rfl⟩
  | blank blank _ ih =>
      rw [skipBlank, if_pos blank]
      exact ih _
  | comment comment _ ih =>
      rw [skipBlank, if_neg (by decide), if_pos rfl]
      obtain ⟨pos', moved⟩ := comment.skip (pos + 1)
      rw [moved]
      exact ih pos'

theorem Bare.skip (h : Bare cs) (pos : Nat) : skipBlank pos cs = ⟨pos, cs⟩ := by
  cases cs with
  | nil => rw [skipBlank]
  | cons c cs =>
      obtain ⟨blank, sharp⟩ := h c rfl
      rw [skipBlank, if_neg (by simp [blank]), if_neg sharp]

theorem Gap.skip_bare (h : Gap cs rest) (bare : Bare rest) (pos : Nat) :
    ∃ pos', skipBlank pos cs = ⟨pos', rest⟩ := by
  obtain ⟨pos', moved⟩ := h.skip pos
  exact ⟨pos', moved.trans (bare.skip pos')⟩

theorem Cursor.skip_spec (cur : Cursor) : Gap cur.rest cur.skip.rest ∧ Bare cur.skip.rest :=
  skipBlank_spec cur.pos cur.rest

theorem Gap.trans (h : Gap cs mid) (h' : Gap mid rest) : Gap cs rest := by
  induction h with
  | nil => exact h'
  | blank blank _ ih => exact .blank blank (ih h')
  | comment comment _ ih => exact .comment comment (ih h')

theorem Gap.length_le (h : Gap cs rest) : rest.length ≤ cs.length := by
  have comment_le : ∀ {cs rest}, Comment cs rest → rest.length ≤ cs.length := by
    intro cs rest h
    induction h with
    | char _ _ ih => exact ih.trans (Nat.le_succ _)
    | line => exact Nat.le_succ _
    | last => exact le_rfl
  induction h with
  | nil => exact le_rfl
  | blank _ _ ih => exact ih.trans (Nat.le_succ _)
  | comment comment _ ih => exact (ih.trans (comment_le comment)).trans (Nat.le_succ _)

/-! ### Names -/

theorem Names.takeWhile (h : Names x cs rest) : cs.takeWhile isNameChar = x.toList := by
  have none : rest.takeWhile isNameChar = [] := by
    cases rest with
    | nil => rfl
    | cons c rest => simp [h.maximal c rfl]
  rw [h.split, List.takeWhile_append_of_pos h.chars, none, List.append_nil]

theorem Names.dropWhile (h : Names x cs rest) : cs.dropWhile isNameChar = rest := by
  have all : rest.dropWhile isNameChar = rest := by
    cases rest with
    | nil => rfl
    | cons c rest => simp [h.maximal c rfl]
  rw [h.split, List.dropWhile_append_of_pos h.chars, all]

theorem names_of_name (h : name cur = .ok (x, cur')) : Names x cur.rest cur'.rest := by
  rw [name] at h
  split at h
  · cases h
  · rename_i c cs found
    cases h
    have taken : (String.ofList (c :: cs)).toList = cur.rest.takeWhile isNameChar := by
      rw [String.toList_ofList, found]
    constructor
    · rw [taken]
      exact List.takeWhile_append_dropWhile.symm
    · simp
    · intro d hd
      rw [taken] at hd
      exact List.mem_takeWhile_imp hd
    · intro d hd
      have stops := List.head?_dropWhile_not isNameChar cur.rest
      rw [Option.mem_def] at hd
      rwa [hd] at stops

theorem Names.name (h : Names x cs rest) (pos : Nat) :
    ∃ pos', name ⟨pos, cs⟩ = .ok (x, ⟨pos', rest⟩) := by
  have taken := h.takeWhile
  cases letters : x.toList with
  | nil => exact absurd letters h.nonempty
  | cons c l =>
      rw [letters] at taken
      refine ⟨pos + (c :: l).length, ?_⟩
      rw [Reader.name]
      simp only [taken, h.dropWhile]
      rw [← letters, String.ofList_toList]

/-- A name begins with one of its characters. -/
theorem Names.exists_cons (h : Names x cs rest) : ∃ c l, cs = c :: l ∧ isNameChar c = true := by
  cases letters : x.toList with
  | nil => exact absurd letters h.nonempty
  | cons c l =>
      refine ⟨c, l ++ rest, ?_, h.chars c (by simp [letters])⟩
      rw [h.split, letters, List.cons_append]

theorem Names.length_lt (h : Names x cs rest) : rest.length < cs.length := by
  have nonempty := List.length_pos_iff.2 h.nonempty
  rw [h.split, List.length_append]
  omega

theorem bare_of_name (h : isNameChar c = true) : Bare (c :: cs) := by
  apply bare_cons
  · cases blank : isBlank c with
    | false => rfl
    | true =>
        have signs : c = ' ' ∨ c = '\t' ∨ c = '\n' ∨ c = '\x0c' ∨ c = '\r' := by
          simpa [isBlank, or_assoc] using blank
        rcases signs with rfl | rfl | rfl | rfl | rfl <;> exact absurd h (by decide)
  · rintro rfl
    exact absurd h (by decide)

theorem Names.bare (h : Names x cs rest) : Bare cs := by
  obtain ⟨c, l, rfl, hc⟩ := h.exists_cons
  exact bare_of_name hc

/-! ### Terms -/

theorem Spells.bare (h : Spells e cs rest) : Bare cs := by
  cases h with
  | var _ => exact bare_cons (by decide) (by decide)
  | constant names => exact names.bare
  | app _ _ _ => exact bare_cons (by decide) (by decide)

theorem Spells.exists_cons (h : Spells e cs rest) : ∃ c l, cs = c :: l ∧ c ≠ ')' := by
  cases h with
  | var _ => exact ⟨_, _, rfl, by decide⟩
  | constant names =>
      obtain ⟨c, l, same, letter⟩ := names.exists_cons
      refine ⟨c, l, same, ?_⟩
      rintro rfl
      exact absurd letter (by decide)
  | app _ _ _ => exact ⟨_, _, rfl, by decide⟩

theorem bind_eq_ok_iff {ε α β : Type} {a : Except ε α} {f : α → Except ε β} {y : β} :
    (a >>= f) = .ok y ↔ ∃ z, a = .ok z ∧ f z = .ok y := by
  cases a with
  | error fault => simp [bind, Except.bind]
  | ok z => simp [bind, Except.bind]

/-- What a term that is read looks like. -/
theorem term_cases (h : term (n + 1) cur = .ok (e, cur')) :
    (∃ x cs, cur.skip.rest = '$' :: cs ∧ e = .var x ∧ name ⟨cur.skip.pos + 1, cs⟩ = .ok (x, cur')) ∨
    (∃ f args cs inner, cur.skip.rest = '(' :: cs ∧ e = .app f args ∧
      name (Cursor.skip ⟨cur.skip.pos + 1, cs⟩) = .ok (f, inner) ∧
      arguments n cur.skip.pos inner = .ok (args, cur')) ∨
    ∃ a, e = .app a [] ∧ name cur.skip = .ok (a, cur') := by
  rw [term] at h
  cases here : cur.skip.rest with
  | nil =>
      rw [here] at h
      cases h
  | cons c cs =>
      rw [here] at h
      dsimp only at h
      by_cases dollar : c = '$'
      · rw [if_pos dollar, bind_eq_ok_iff] at h
        obtain ⟨⟨x, after⟩, named, done⟩ := h
        cases done
        exact .inl ⟨x, cs, by rw [dollar], rfl, named⟩
      rw [if_neg dollar] at h
      by_cases opened : c = '('
      · rw [if_pos opened, bind_eq_ok_iff] at h
        obtain ⟨⟨f, inner⟩, named, h⟩ := h
        obtain ⟨⟨args, after⟩, closed, done⟩ := bind_eq_ok_iff.1 h
        cases done
        exact .inr (.inl ⟨f, args, cs, inner, by rw [opened], rfl, named, closed⟩)
      rw [if_neg opened] at h
      split at h
      · obtain ⟨⟨a, after⟩, named, done⟩ := bind_eq_ok_iff.1 h
        cases done
        exact .inr (.inr ⟨a, rfl, named⟩)
      · cases h

theorem arguments_cases (h : arguments (n + 1) pos cur = .ok (es, cur')) :
    (cur.skip.rest = ')' :: cur'.rest ∧ es = []) ∨
    ∃ e es' inner, es = e :: es' ∧ term n cur.skip = .ok (e, inner) ∧ arguments n pos inner = .ok (es', cur') := by
  rw [arguments] at h
  cases here : cur.skip.rest with
  | nil =>
      rw [here] at h
      cases h
  | cons c cs =>
      rw [here] at h
      dsimp only at h
      by_cases closed : c = ')'
      · rw [if_pos closed] at h
        cases h
        exact .inl ⟨by rw [closed], rfl⟩
      rw [if_neg closed, bind_eq_ok_iff] at h
      obtain ⟨⟨e, inner⟩, first, h⟩ := h
      obtain ⟨⟨es', after⟩, rest, done⟩ := bind_eq_ok_iff.1 h
      cases done
      exact .inr ⟨e, es', inner, rfl, first, rest⟩

/-- What is read is a term behind a gap, or arguments. -/
theorem reads_sound (n : Nat) :
    (∀ e cur cur', term n cur = .ok (e, cur') → ∃ cs, Gap cur.rest cs ∧ Spells e cs cur'.rest) ∧
    ∀ es pos cur cur', arguments n pos cur = .ok (es, cur') → SpellsAll es cur.rest cur'.rest := by
  induction n with
  | zero =>
      constructor
      · intro e cur cur' h
        cases h
      · intro es pos cur cur' h
        cases h
  | succ n ih =>
      obtain ⟨ihTerm, ihArguments⟩ := ih
      constructor
      · intro e cur cur' h
        have gap := cur.skip_spec.1
        rcases term_cases h with ⟨x, cs, here, rfl, named⟩ | ⟨f, args, cs, inner, here, rfl, named, closed⟩ |
          ⟨a, rfl, named⟩
        · exact ⟨_, gap, here ▸ .var (names_of_name named)⟩
        · have within := (Cursor.skip_spec ⟨cur.skip.pos + 1, cs⟩).1
          exact ⟨_, gap, here ▸ .app within (names_of_name named) (ihArguments _ _ _ _ closed)⟩
        · exact ⟨_, gap, .constant (names_of_name named)⟩
      · intro es pos cur cur' h
        have gap := cur.skip_spec.1
        rcases arguments_cases h with ⟨here, rfl⟩ | ⟨e, es, inner, rfl, first, rest⟩
        · exact .close (here ▸ gap)
        · obtain ⟨cs, within, spells⟩ := ihTerm _ _ _ first
          exact .cons (gap.trans within) spells (ihArguments _ _ _ _ rest)

mutual
theorem Spells.length_lt {e : Expr} {cs rest : List Char} (h : Spells e cs rest) : rest.length < cs.length := by
  cases h with
  | var names => exact names.length_lt.trans (Nat.lt_succ_self _)
  | constant names => exact names.length_lt
  | app gap names args =>
      have inside := SpellsAll.length_lt args
      have before := gap.length_le
      have head := names.length_lt
      rw [List.length_cons]
      omega

theorem SpellsAll.length_lt {es : List Expr} {cs rest : List Char} (h : SpellsAll es cs rest) :
    rest.length < cs.length := by
  cases h with
  | close gap => exact gap.length_le
  | cons gap first others =>
      have before := gap.length_le
      have inside := Spells.length_lt first
      have behind := SpellsAll.length_lt others
      omega
end

section
variable {p : Nat}

theorem term_var (h : cur.skip = ⟨p, '$' :: cs⟩) : term (n + 1) cur = do
    let (x, cur) ← name ⟨p + 1, cs⟩
    return (.var x, cur) := by
  rw [term, h]
  exact if_pos rfl

theorem term_app (h : cur.skip = ⟨p, '(' :: cs⟩) : term (n + 1) cur = do
    let (f, inner) ← name (Cursor.skip ⟨p + 1, cs⟩)
    let (args, cur) ← arguments n p inner
    return (.app f args, cur) := by
  rw [term, h]
  exact if_neg (by decide)

theorem term_constant (h : cur.skip = ⟨p, c :: cs⟩) (letter : isNameChar c = true) : term (n + 1) cur = do
    let (a, cur) ← name ⟨p, c :: cs⟩
    return (.app a [], cur) := by
  have dollar : c ≠ '$' := by
    rintro rfl
    exact absurd letter (by decide)
  have opened : c ≠ '(' := by
    rintro rfl
    exact absurd letter (by decide)
  rw [term, h]
  dsimp only
  rw [if_neg dollar, if_neg opened, if_pos letter]

theorem arguments_close {opened : Nat} (h : skipBlank pos cs = ⟨p, ')' :: rest⟩) :
    arguments (n + 1) opened ⟨pos, cs⟩ = .ok ([], ⟨p + 1, rest⟩) := by
  rw [arguments, Cursor.skip, h]
  exact if_pos rfl

theorem arguments_cons {opened : Nat} (h : skipBlank pos cs = ⟨p, c :: mid⟩) (more : c ≠ ')') :
    arguments (n + 1) opened ⟨pos, cs⟩ = do
      let (arg, cur) ← term n ⟨p, c :: mid⟩
      let (args, cur) ← arguments n opened cur
      return (arg :: args, cur) := by
  rw [arguments, Cursor.skip, h]
  exact if_neg more

end

/-- Within a bound of the length every text that spells a term is read as it. -/
def ReadsTerms (n : Nat) : Prop :=
  ∀ e cs rest, Spells e cs rest → cs.length ≤ n → ∀ cur, Gap cur.rest cs →
    ∃ pos, term n cur = .ok (e, ⟨pos, rest⟩)

/-- The same for the arguments of an application. -/
def ReadsArguments (n : Nat) : Prop :=
  ∀ es cs rest, SpellsAll es cs rest → cs.length < n → ∀ opened pos,
    ∃ pos', arguments n opened ⟨pos, cs⟩ = .ok (es, ⟨pos', rest⟩)

theorem ReadsArguments.term {n : Nat} (ih : ReadsArguments n) : ReadsTerms (n + 1) := by
  intro e cs rest h le cur gap
  obtain ⟨pos, skipped⟩ := gap.skip_bare h.bare cur.pos
  have skipped : cur.skip = ⟨pos, cs⟩ := skipped
  cases h with
  | @var x l _ names =>
      obtain ⟨pos', named⟩ := names.name (pos + 1)
      exact ⟨pos', by rw [term_var skipped, named]; rfl⟩
  | @constant a _ _ names =>
      obtain ⟨pos', named⟩ := names.name pos
      obtain ⟨c, l, rfl, letter⟩ := names.exists_cons
      exact ⟨pos', by rw [term_constant skipped letter, named]; rfl⟩
  | @app f args l cs₁ cs₂ _ inner names closed =>
      obtain ⟨pos₁, within⟩ := inner.skip_bare names.bare (pos + 1)
      obtain ⟨pos₂, named⟩ := names.name pos₁
      have shorter := names.length_lt
      have before := inner.length_le
      have enough : cs₂.length < n := by
        rw [List.length_cons] at le
        omega
      obtain ⟨pos₃, read⟩ := ih _ _ _ closed enough pos pos₂
      refine ⟨pos₃, ?_⟩
      rw [term_app skipped]
      change (name (skipBlank (pos + 1) l) >>= _) = _
      rw [within, named]
      change (arguments n pos ⟨pos₂, cs₂⟩ >>= _) = _
      rw [read]
      rfl

theorem ReadsArguments.succ {n : Nat} (ih : ReadsArguments n) (ihTerm : ReadsTerms n) :
    ReadsArguments (n + 1) := by
  intro es cs rest h lt opened pos
  cases h with
  | close gap =>
      obtain ⟨pos', skipped⟩ := gap.skip_bare (bare_cons (by decide) (by decide)) pos
      exact ⟨pos' + 1, arguments_close skipped⟩
  | @cons e es _ cs₁ cs₂ _ gap first others =>
      have le := gap.length_le
      have less := first.length_lt
      obtain ⟨pos₁, skipped⟩ := gap.skip_bare first.bare pos
      obtain ⟨pos₂, read⟩ := ihTerm _ _ _ first (by omega) ⟨pos₁, cs₁⟩ .nil
      obtain ⟨pos₃, rest⟩ := ih _ _ _ others (by omega) opened pos₂
      obtain ⟨c, l, rfl, more⟩ := first.exists_cons
      refine ⟨pos₃, ?_⟩
      rw [arguments_cons skipped more, read]
      change (arguments n opened ⟨pos₂, cs₂⟩ >>= _) = _
      rw [rest]
      rfl

/-- Every term and all arguments are read, however deep they are nested. -/
theorem reads_complete (n : Nat) : ReadsTerms n ∧ ReadsArguments n := by
  induction n with
  | zero =>
      constructor
      · intro e cs rest h le
        have := h.length_lt
        omega
      · intro es cs rest h lt
        omega
  | succ n ih => exact ⟨ih.2.term, ih.2.succ ih.1⟩

/-! ### Whole texts -/

theorem finish_eq_ok_iff {fault : ParseFault} : finish fault cur = .ok () ↔ Gap cur.rest [] := by
  rw [finish]
  constructor
  · intro h
    have gap := cur.skip_spec.1
    cases here : cur.skip.rest with
    | nil => rwa [here] at gap
    | cons c cs =>
        rw [here] at h
        cases h
  · intro gap
    obtain ⟨pos, skipped⟩ := gap.skip_bare bare_nil cur.pos
    have skipped : cur.skip = ⟨pos, []⟩ := skipped
    rw [skipped]

theorem separator_eq_ok (h : separator cur = .ok cur') : Separates cur.skip.rest cur'.rest := by
  rw [separator] at h
  split at h
  · rename_i here
    cases h
    exact here ▸ .arrow
  · rename_i here
    cases h
    exact here ▸ .equal
  · cases h

theorem Separates.bare (h : Separates cs rest) : Bare cs := by
  cases h with
  | equal => exact bare_cons (by decide) (by decide)
  | arrow => exact bare_cons (by decide) (by decide)

theorem Separates.length_lt (h : Separates cs rest) : rest.length < cs.length := by
  cases h with
  | equal => exact Nat.lt_succ_self _
  | arrow => exact Nat.lt_succ_of_lt (Nat.lt_succ_self _)

theorem Separates.separator (h : Separates cs rest) (gap : Gap cur.rest cs) :
    ∃ pos, separator cur = .ok ⟨pos, rest⟩ := by
  obtain ⟨pos, skipped⟩ := gap.skip_bare h.bare cur.pos
  have skipped : cur.skip = ⟨pos, cs⟩ := skipped
  rw [Reader.separator, skipped]
  cases h with
  | equal => exact ⟨_, rfl⟩
  | arrow => exact ⟨_, rfl⟩

/-- A text is read as a term if and only if the grammar derives it from the term. -/
theorem termExpr_eq_ok_iff : termExpr cs = .ok e ↔ TermText e cs := by
  rw [termExpr]
  constructor
  · intro h
    obtain ⟨⟨e', cur⟩, read, h⟩ := bind_eq_ok_iff.1 h
    obtain ⟨_, ended, done⟩ := bind_eq_ok_iff.1 h
    cases done
    obtain ⟨start, gap, spells⟩ := (reads_sound _).1 _ _ _ read
    exact ⟨start, cur.rest, gap, spells, finish_eq_ok_iff.1 ended⟩
  · rintro ⟨start, rest, gap, spells, ended⟩
    have le := gap.length_le
    obtain ⟨pos, read⟩ := (reads_complete _).1 _ _ _ spells (le.trans (Nat.le_succ _)) ⟨0, cs⟩ gap
    rw [read]
    change (finish .afterTerm ⟨pos, rest⟩ >>= _) = _
    rw [finish_eq_ok_iff.2 ended]
    rfl

theorem equationExpr_eq_ok_iff {l r : Expr} : equationExpr cs = .ok (l, r) ↔ EquationText l r cs := by
  rw [equationExpr]
  constructor
  · intro h
    obtain ⟨⟨l', cur⟩, left, h⟩ := bind_eq_ok_iff.1 h
    obtain ⟨cur₁, sign, h⟩ := bind_eq_ok_iff.1 h
    obtain ⟨⟨r', cur₂⟩, right, h⟩ := bind_eq_ok_iff.1 h
    obtain ⟨_, ended, done⟩ := bind_eq_ok_iff.1 h
    cases done
    obtain ⟨start, gap, spells⟩ := (reads_sound _).1 _ _ _ left
    obtain ⟨start', gap', spells'⟩ := (reads_sound _).1 _ _ _ right
    exact ⟨start, cur.rest, cur.skip.rest, cur₁.rest, start', cur₂.rest, gap, spells, cur.skip_spec.1,
      separator_eq_ok sign, gap', spells', finish_eq_ok_iff.1 ended⟩
  · rintro ⟨cs₁, cs₂, cs₃, cs₄, cs₅, cs₆, gap, left, gap', sign, gap'', right, ended⟩
    have le := gap.length_le
    have less := left.length_lt
    have le' := gap'.length_le
    have less' := sign.length_lt
    have le'' := gap''.length_le
    obtain ⟨pos, readLeft⟩ := (reads_complete _).1 _ _ _ left (le.trans (Nat.le_succ _)) ⟨0, cs⟩ gap
    obtain ⟨pos₁, separated⟩ := @Separates.separator cs₃ cs₄ ⟨pos, cs₂⟩ sign gap'
    obtain ⟨pos₂, readRight⟩ := (reads_complete (cs.length + 1)).1 _ _ _ right (by omega) ⟨pos₁, cs₄⟩ gap''
    rw [readLeft]
    change (Reader.separator ⟨pos, cs₂⟩ >>= _) = _
    rw [separated]
    change (term (cs.length + 1) ⟨pos₁, cs₄⟩ >>= _) = _
    rw [readRight]
    change (finish .afterEquation ⟨pos₂, cs₆⟩ >>= _) = _
    rw [finish_eq_ok_iff.2 ended]
    rfl

/-- A text is a term, or an equation, in at most one way. -/
theorem TermText.unique {e' : Expr} (h : TermText e cs) (h' : TermText e' cs) : e = e' :=
  Except.ok.inj ((termExpr_eq_ok_iff.2 h).symm.trans (termExpr_eq_ok_iff.2 h'))

theorem EquationText.unique {l l' r r' : Expr} (h : EquationText l r cs) (h' : EquationText l' r' cs) :
    l = l' ∧ r = r' :=
  Prod.mk.inj (Except.ok.inj ((equationExpr_eq_ok_iff.2 h).symm.trans (equationExpr_eq_ok_iff.2 h')))

end OrderedCompletion.Reader
