import OrderedCompletion.Proofs.Boundaries

/-! A reader that goes through the bytes of a text one by one and cuts names out of the text by byte counts. It reads
what the reader of characters reads, and all that it cuts out begins and ends between characters. -/

namespace OrderedCompletion

namespace Text

/-- The part of a text from one byte up to another one. There is none if they are out of order, behind the end or
within a character. -/
def slice? (text : String) (start stop : Nat) : Option String :=
  if h : String.Pos.Raw.IsValid text ⟨start⟩ ∧ String.Pos.Raw.IsValid text ⟨stop⟩ ∧ start ≤ stop then
    some (text.extract ⟨⟨start⟩, h.1⟩ ⟨⟨stop⟩, h.2.1⟩)
  else none

/-- The bytes of characters in UTF-8. -/
def encode (cs : List Char) : List UInt8 := cs.flatMap String.utf8EncodeChar

end Text

namespace ByteReader

/-- Why reading ends early. -/
inductive Stop where
  | fault (e : ParseError)
  /-- The text has no such part. -/
  | noSlice (start stop : Nat)
  deriving DecidableEq, Repr

/-- The character with the number of a byte. -/
def glyph (b : UInt8) : Char := Char.ofUInt8 b

/-- The bytes that are left of a text, with the number of bytes before them. -/
structure Cursor where
  pos : Nat
  rest : List UInt8

def slice (text : String) (start stop : Nat) : Except Stop String :=
  match Text.slice? text start stop with
  | some part => .ok part
  | none => .error (.noSlice start stop)

mutual
/-- Moves past blanks and comments, also through the bytes of one character. -/
def skipBlank (pos : Nat) : List UInt8 → Cursor
  | [] => ⟨pos, []⟩
  | b :: bs =>
    if Reader.isBlank (glyph b) then skipBlank (pos + 1) bs
    else if glyph b = '#' then skipComment (pos + 1) bs
    else ⟨pos, b :: bs⟩

def skipComment (pos : Nat) : List UInt8 → Cursor
  | [] => ⟨pos, []⟩
  | b :: bs => if glyph b = '\n' then skipBlank (pos + 1) bs else skipComment (pos + 1) bs
end

def Cursor.skip (cur : Cursor) : Cursor := skipBlank cur.pos cur.rest

/-- The longest name at the cursor, cut out of the text. -/
def name (text : String) (cur : Cursor) : Except Stop (String × Cursor) :=
  match cur.rest.takeWhile fun b => Reader.isNameChar (glyph b) with
  | [] => .error (.fault ⟨.expectedName, cur.pos⟩)
  | b :: bs => do
    let stop := cur.pos + (b :: bs).length
    let x ← slice text cur.pos stop
    return (x, ⟨stop, cur.rest.drop (b :: bs).length⟩)

/-- Moves past a token if the rest of the text, cut out of it, begins with the token. -/
def eat (text : String) (token : List Char) (cur : Cursor) : Except Stop (Option Cursor) := do
  let tail ← slice text cur.pos text.utf8ByteSize
  let n := Text.byteCount token
  return if token.isPrefixOf tail.toList then some ⟨cur.pos + n, cur.rest.drop n⟩ else none

mutual
/-- The term at the cursor. The number bounds the nesting. -/
def term (text : String) : Nat → Cursor → Except Stop (Expr × Cursor)
  | 0, cur => .error (.fault ⟨.unexpectedEnd, cur.pos⟩)
  | n + 1, cur =>
    let cur := cur.skip
    match cur.rest with
    | [] => .error (.fault ⟨.unexpectedEnd, cur.pos⟩)
    | b :: bs =>
      if glyph b = '$' then do
        let (x, cur) ← name text ⟨cur.pos + 1, bs⟩
        return (.var x, cur)
      else if glyph b = '(' then do
        let (f, inner) ← name text (Cursor.skip ⟨cur.pos + 1, bs⟩)
        let (args, cur) ← arguments text n cur.pos inner
        return (.app f args, cur)
      else if Reader.isNameChar (glyph b) then do
        let (a, cur) ← name text cur
        return (.app a [], cur)
      else .error (.fault ⟨.unexpectedByte b.toNat, cur.pos⟩)

/-- The terms up to the closing parenthesis of the one opened at `opened`. -/
def arguments (text : String) : Nat → Nat → Cursor → Except Stop (List Expr × Cursor)
  | 0, opened, _ => .error (.fault ⟨.unclosed, opened⟩)
  | n + 1, opened, cur =>
    let cur := cur.skip
    match cur.rest with
    | [] => .error (.fault ⟨.unclosed, opened⟩)
    | b :: bs =>
      if glyph b = ')' then .ok ([], ⟨cur.pos + 1, bs⟩)
      else do
        let (arg, cur) ← term text n cur
        let (args, cur) ← arguments text n opened cur
        return (arg :: args, cur)
end

/-- Only blanks and comments may be left. -/
def finish (fault : ParseFault) (cur : Cursor) : Except Stop Unit :=
  let cur := cur.skip
  match cur.rest with
  | [] => .ok ()
  | _ :: _ => .error (.fault ⟨fault, cur.pos⟩)

/-- The sign between the sides of an equation. -/
def separator (text : String) (cur : Cursor) : Except Stop Cursor := do
  let cur := cur.skip
  if let some cur ← eat text ['-', '>'] cur then return cur
  if let some cur ← eat text ['='] cur then return cur
  throw (.fault ⟨.expectedSeparator, cur.pos⟩)

def start (text : String) : Cursor := ⟨0, text.toUTF8.data.toList⟩

/-- Reads a text that is one term. -/
def termExpr (text : String) : Except Stop Expr := do
  let (e, cur) ← term text (text.length + 1) (start text)
  finish .afterTerm cur
  return e

/-- Reads a text that is one equation. -/
def equationExpr (text : String) : Except Stop (Expr × Expr) := do
  let (lhs, cur) ← term text (text.length + 1) (start text)
  let cur ← separator text cur
  let (rhs, cur) ← term text (text.length + 1) cur
  finish .afterEquation cur
  return (lhs, rhs)

/-- Reads one equation a line; `offset` bytes precede the first line. -/
def equationExprs (offset : Nat) : List (List Char) → Except Stop (List (Expr × Expr))
  | [] => .ok []
  | line :: rest =>
    if (Text.trim (Reader.body line)).isEmpty then equationExprs (offset + Text.byteCount line) rest
    else
      match equationExpr (String.ofList (Reader.body line)) with
      | .error (.fault e) => .error (.fault { e with position := offset + e.position })
      | .error stop => .error stop
      | .ok e => do
        let es ← equationExprs (offset + Text.byteCount line) rest
        return e :: es

end ByteReader

/-! ### Bytes and characters -/

namespace Text

variable {text : String} {before mid after cs : List Char}

theorem encode_cons (c : Char) (cs : List Char) : encode (c :: cs) = String.utf8EncodeChar c ++ encode cs :=
  List.flatMap_cons

theorem encode_append (as bs : List Char) : encode (as ++ bs) = encode as ++ encode bs := List.flatMap_append

theorem length_encode (cs : List Char) : (encode cs).length = byteCount cs := by
  induction cs with
  | nil => rfl
  | cons c cs ih => rw [encode_cons, List.length_append, String.length_utf8EncodeChar, ih, byteCount]

theorem toUTF8_toList (text : String) : text.toUTF8.data.toList = encode text.toList := by
  conv => lhs; rw [← String.ofList_toList (s := text), String.toUTF8_eq_toByteArray, String.toByteArray_ofList]
  exact List.toList_data_toByteArray

/-- Between two points of a text there is what is between them. -/
theorem slice?_eq (h : text.toList = before ++ (mid ++ after)) :
    slice? text (byteCount before) (byteCount before + byteCount mid) = some (String.ofList mid) := by
  have start : Boundary text.toList (byteCount before) := ⟨before, mid ++ after, h, rfl⟩
  have stop : Boundary text.toList (byteCount before + byteCount mid) :=
    ⟨before ++ mid, after, by rw [h, List.append_assoc], (byteCount_append before mid).symm⟩
  rw [slice?, dif_pos ⟨start.isValid, stop.isValid, Nat.le_add_right _ _⟩]
  have whole : text = String.ofList before ++ (String.ofList mid ++ String.ofList after) := by
    rw [← String.ofList_append, ← String.ofList_append, ← h, String.ofList_toList]
  have size : ∀ cs, byteCount cs = (String.ofList cs).toByteArray.size := by
    intro cs
    rw [String.size_toByteArray, ← byteCount_toList, String.toList_ofList]
  congr 1
  rw [← String.toByteArray_inj]
  change text.toByteArray.extract (byteCount before) (byteCount before + byteCount mid) = _
  rw [whole, String.toByteArray_append, String.toByteArray_append,
    ← Nat.add_zero (byteCount before), Nat.add_assoc, Nat.zero_add,
    ByteArray.extract_append_size_add' (size before), ByteArray.extract_append_eq_left (size mid)]

end Text

namespace ByteReader

open Text

variable {text : String} {c d : Char} {b : UInt8} {cs rest token : List Char} {bs : List UInt8} {pos n : Nat}
variable {cur : Reader.Cursor} {α α' β β' : Type}

/-! ### The bytes of one character -/

theorem toNat_glyph (b : UInt8) : (glyph b).toNat = b.toNat := rfl

theorem glyph_ofNat (h : n < 128) : (glyph (UInt8.ofNat n)).toNat = n := by
  rw [toNat_glyph, UInt8.toNat_ofNat', Nat.mod_eq_of_lt (h.trans (by decide))]

/-- A character of one byte is shown by the byte. -/
theorem encode_ascii (h : c.toNat < 128) : ∃ b, glyph b = c ∧ ∀ cs, encode (c :: cs) = b :: encode cs := by
  have low : c.val.toNat ≤ 127 := Nat.le_of_lt_succ h
  refine ⟨UInt8.ofNat c.val.toNat, Char.toNat_inj.1 (glyph_ofNat h), fun cs => ?_⟩
  rw [encode_cons, String.utf8EncodeChar, if_pos low, List.singleton_append]

/-- No byte of any other character shows a character of one byte. -/
theorem encodeChar_wide (h : 128 ≤ c.toNat) : ∃ b bs, String.utf8EncodeChar c = b :: bs ∧
    b.toNat = Reader.leadByte c ∧ ∀ d ∈ b :: bs, 128 ≤ (glyph d).toNat := by
  have bound : c.val.toNat < 0x110000 := by
    rcases c.valid with low | high
    · exact low.trans (by decide)
    · exact high.2
  have byte : ∀ n < 256, (UInt8.ofNat n).toNat = n := fun n small => by
    rw [UInt8.toNat_ofNat', Nat.mod_eq_of_lt small]
  simp only [toNat_glyph]
  rw [String.utf8EncodeChar, Reader.leadByte]
  simp only [Char.toNat] at h ⊢
  generalize c.val.toNat = v at h bound ⊢
  -- one case for each number of bytes
  split_ifs
  all_goals first
    | omega
    | refine ⟨_, _, rfl, ?_, ?_⟩
      · rw [byte _ (by omega)]
        omega
      · simp only [List.forall_mem_cons, List.not_mem_nil, false_implies, implies_true, and_true]
        repeat rw [byte _ (by omega)]
        omega

theorem encode_wide (h : 128 ≤ c.toNat) : ∃ b bs, b.toNat = Reader.leadByte c ∧ (b :: bs).length = c.utf8Size ∧
    (∀ d ∈ b :: bs, 128 ≤ (glyph d).toNat) ∧ ∀ cs, encode (c :: cs) = b :: bs ++ encode cs := by
  obtain ⟨b, bs, bytes, lead, wide⟩ := encodeChar_wide h
  refine ⟨b, bs, lead, ?_, wide, fun cs => by rw [encode_cons, bytes]⟩
  rw [← bytes, String.length_utf8EncodeChar]

/-- The first byte shows the character, or neither of the two is of ASCII. -/
theorem encode_first (c : Char) (cs : List Char) : ∃ b bs, encode (c :: cs) = b :: bs ∧
    b.toNat = Reader.leadByte c ∧
    (glyph b = c ∧ bs = encode cs ∨ 128 ≤ (glyph b).toNat ∧ 128 ≤ c.toNat) := by
  rcases Nat.lt_or_ge c.toNat 128 with low | high
  · obtain ⟨b, rfl, bytes⟩ := encode_ascii low
    exact ⟨b, encode cs, bytes cs, (if_pos low).symm, .inl ⟨rfl, rfl⟩⟩
  · obtain ⟨b, bs, lead, _, wide, bytes⟩ := encode_wide high
    exact ⟨b, bs ++ encode cs, bytes cs, lead, .inr ⟨wide b List.mem_cons_self, high⟩⟩

theorem ne_of_wide (h : 128 ≤ c.toNat) (low : d.toNat < 128) : c ≠ d := by
  rintro rfl
  exact absurd h (Nat.not_le.2 low)

theorem not_blank_of_wide (h : 128 ≤ c.toNat) : ¬ Reader.isBlank c = true :=
  fun blank => absurd h (Nat.not_le.2 (Reader.toNat_of_blank blank))

theorem not_name_of_wide (h : 128 ≤ c.toNat) : ¬ Reader.isNameChar c = true :=
  fun letter => absurd h (Nat.not_le.2 (Reader.toNat_of_name letter))

/-! ### Blanks and names -/

/-- The byte cursor at the same point. -/
def Cursor.at (cur : Reader.Cursor) : Cursor := ⟨cur.pos, encode cur.rest⟩

theorem skipComment_append (h : ∀ d ∈ bs, 128 ≤ (glyph d).toNat) (pos : Nat) (bs' : List UInt8) :
    skipComment pos (bs ++ bs') = skipComment (pos + bs.length) bs' := by
  induction bs generalizing pos with
  | nil => rfl
  | cons b bs ih =>
      have other : glyph b ≠ '\n' := ne_of_wide (h b List.mem_cons_self) (by decide)
      rw [List.cons_append, skipComment, if_neg other, ih (fun d hd => h d (List.mem_cons_of_mem b hd)),
        List.length_cons, Nat.add_assoc, Nat.add_comm 1]

mutual
theorem skipBlank_encode (pos : Nat) (cs : List Char) :
    skipBlank pos (encode cs) = Cursor.at (Reader.skipBlank pos cs) := by
  cases cs with
  | nil => rw [encode, List.flatMap_nil, skipBlank, Reader.skipBlank, Cursor.at, encode, List.flatMap_nil]
  | cons c cs =>
      rcases Nat.lt_or_ge c.toNat 128 with low | high
      · obtain ⟨b, shown, bytes⟩ := encode_ascii low
        rw [bytes, skipBlank, Reader.skipBlank, shown]
        split_ifs
        · exact skipBlank_encode (pos + 1) cs
        · exact skipComment_encode (pos + 1) cs
        · rw [Cursor.at, bytes]
      · obtain ⟨b, bs, _, _, wide, bytes⟩ := encode_wide high
        have first := wide b List.mem_cons_self
        rw [bytes, List.cons_append, skipBlank, if_neg (not_blank_of_wide first),
          if_neg (ne_of_wide first (by decide)), Reader.skipBlank, if_neg (not_blank_of_wide high),
          if_neg (ne_of_wide high (by decide)), Cursor.at, bytes, List.cons_append]

theorem skipComment_encode (pos : Nat) (cs : List Char) :
    skipComment pos (encode cs) = Cursor.at (Reader.skipComment pos cs) := by
  cases cs with
  | nil => rw [encode, List.flatMap_nil, skipComment, Reader.skipComment, Cursor.at, encode, List.flatMap_nil]
  | cons c cs =>
      rcases Nat.lt_or_ge c.toNat 128 with low | high
      · obtain ⟨b, shown, bytes⟩ := encode_ascii low
        rw [bytes, skipComment, Reader.skipComment, shown]
        split_ifs
        · exact skipBlank_encode (pos + 1) cs
        · rw [Reader.utf8Size_of_toNat low]
          exact skipComment_encode (pos + 1) cs
      · obtain ⟨b, bs, _, size, wide, bytes⟩ := encode_wide high
        rw [bytes, skipComment_append wide, size, Reader.skipComment, if_neg (ne_of_wide high (by decide))]
        exact skipComment_encode (pos + c.utf8Size) cs
end

theorem skip_at (cur : Reader.Cursor) : (Cursor.at cur).skip = Cursor.at cur.skip := skipBlank_encode cur.pos cur.rest

theorem takeWhile_encode (cs : List Char) :
    ((encode cs).takeWhile fun b => Reader.isNameChar (glyph b)) = encode (cs.takeWhile Reader.isNameChar) := by
  induction cs with
  | nil => rfl
  | cons c cs ih =>
      rcases Nat.lt_or_ge c.toNat 128 with low | high
      · obtain ⟨b, shown, bytes⟩ := encode_ascii low
        rw [bytes, List.takeWhile_cons, shown, ih, List.takeWhile_cons]
        split
        · rw [bytes]
        · rfl
      · obtain ⟨b, bs, _, _, wide, bytes⟩ := encode_wide high
        rw [bytes, List.cons_append, List.takeWhile_cons, if_neg (not_name_of_wide (wide b List.mem_cons_self)),
          List.takeWhile_cons, if_neg (not_name_of_wide high)]
        rfl

theorem drop_encode (as bs : List Char) : (encode (as ++ bs)).drop (byteCount as) = encode bs := by
  rw [encode_append, ← length_encode, List.drop_left]

/-! ### Slices -/

/-- What reading characters gives, as reading bytes gives it. -/
def carry (f : α → α') : Except ParseError α → Except Stop α'
  | .ok a => .ok (f a)
  | .error e => .error (.fault e)

/-- A fault is carried on, and what is read is read on. -/
theorem carry_bind {f : α → α'} {g : β → β'} {x : Except ParseError α} {k : α → Except ParseError β}
    {k' : α' → Except Stop β'} {P : α → Prop} (hx : Reader.Keeps cs P x)
    (hk : ∀ a, P a → k' (f a) = carry g (k a)) : carry f x >>= k' = carry g (x >>= k) := by
  cases x with
  | error e => rfl
  | ok a => exact hk a hx

/-- What is read together with the cursor behind it. -/
abbrev follow (x : Except ParseError (α × Reader.Cursor)) : Except Stop (α × Cursor) := carry (Prod.map id Cursor.at) x

theorem slice_eq {before mid after : List Char} (h : text.toList = before ++ (mid ++ after)) :
    slice text (byteCount before) (byteCount before + byteCount mid) = .ok (String.ofList mid) := by
  rw [slice, slice?_eq h]

theorem name_at (h : cur.In text.toList) : name text (Cursor.at cur) = follow (Reader.name cur) := by
  obtain ⟨pos, rest⟩ := cur
  obtain ⟨before, split, rfl⟩ := h
  have parts : rest = rest.takeWhile Reader.isNameChar ++ rest.dropWhile Reader.isNameChar :=
    List.takeWhile_append_dropWhile.symm
  rw [name, Reader.name]
  change (match (encode rest).takeWhile _ with | [] => _ | _ :: _ => _) = _
  rw [takeWhile_encode]
  dsimp only at split ⊢
  cases letters : rest.takeWhile Reader.isNameChar with
  | nil => rfl
  | cons c l =>
      have names : ∀ d ∈ c :: l, Reader.isNameChar d = true := fun d hd => List.mem_takeWhile_imp (letters ▸ hd)
      obtain ⟨b, _, bytes⟩ := encode_ascii (Reader.toNat_of_name (names c List.mem_cons_self))
      have size : (b :: encode l).length = byteCount (c :: l) := by rw [← bytes, length_encode]
      rw [letters] at parts
      have cut : slice text (byteCount before) (byteCount before + byteCount (c :: l)) = _ :=
        slice_eq (parts ▸ split)
      have left : (encode rest).drop (byteCount (c :: l)) = encode (rest.dropWhile Reader.isNameChar) := by
        conv => lhs; rw [parts, drop_encode]
      rw [bytes]
      change (slice text (byteCount before) (byteCount before + (b :: encode l).length) >>= fun x =>
        Except.ok (x, (⟨byteCount before + (b :: encode l).length,
          (encode rest).drop (b :: encode l).length⟩ : Cursor))) = _
      rw [size, cut, left, Reader.byteCount_of_names names]
      rfl

/-- At a point of the text the rest of it is there to be cut out. -/
theorem eat_at (h : cur.In text.toList) : eat text token (Cursor.at cur) =
    .ok (if token.isPrefixOf cur.rest then some (Cursor.at ⟨cur.pos + byteCount token, cur.rest.drop token.length⟩)
      else none) := by
  obtain ⟨pos, rest⟩ := cur
  obtain ⟨before, split, rfl⟩ := h
  have whole : text.utf8ByteSize = byteCount before + byteCount rest := by
    rw [← byteCount_toList, split, byteCount_append]
  have tail : slice text (byteCount before) (byteCount before + byteCount rest) = .ok (String.ofList rest) :=
    slice_eq ((List.append_nil rest).symm ▸ split)
  rw [eat]
  change (slice text (byteCount before) text.utf8ByteSize >>= _) = _
  rw [whole, tail]
  change Except.ok _ = Except.ok _
  rw [String.toList_ofList]
  congr 1
  split
  · rename_i begins
    obtain ⟨rest, rfl⟩ := List.isPrefixOf_iff_prefix.1 begins
    rw [Cursor.at, Cursor.at, drop_encode, List.drop_left]
  · rfl

theorem separator_at (h : cur.In text.toList) :
    separator text (Cursor.at cur) = carry Cursor.at (Reader.separator cur) := by
  have inside := h.skip
  rw [separator, Reader.separator, skip_at, eat_at inside, eat_at inside]
  by_cases arrow : ['-', '>'].isPrefixOf cur.skip.rest = true
  · obtain ⟨l, here⟩ := List.isPrefixOf_iff_prefix.1 arrow
    rw [if_pos arrow, ← here]
    rfl
  rw [if_neg arrow]
  by_cases equal : ['='].isPrefixOf cur.skip.rest = true
  · obtain ⟨l, here⟩ := List.isPrefixOf_iff_prefix.1 equal
    rw [if_pos equal, ← here]
    rfl
  rw [if_neg equal]
  split
  · rename_i l here
    exact absurd (List.isPrefixOf_iff_prefix.2 ⟨l, here.symm⟩) arrow
  · rename_i l here
    exact absurd (List.isPrefixOf_iff_prefix.2 ⟨l, here.symm⟩) equal
  · rfl

theorem finish_at (fault : ParseFault) (cur : Reader.Cursor) :
    finish fault (Cursor.at cur) = carry id (Reader.finish fault cur) := by
  rw [finish, Reader.finish, skip_at]
  cases here : cur.skip.rest with
  | nil =>
      rw [Cursor.at, here]
      rfl
  | cons c cs =>
      obtain ⟨b, bs, bytes, _⟩ := encode_first c cs
      rw [Cursor.at, here, bytes]
      rfl

/-! ### Terms -/

/-- Terms within a bound of the nesting are read alike, and whatever is read, the cursor of bytes stands where the
cursor of characters does. -/
def TermAt (text : String) (n : Nat) : Prop :=
  ∀ cur : Reader.Cursor, cur.In text.toList → term text n (Cursor.at cur) = follow (Reader.term n cur)

/-- The same for the arguments of what was opened at a boundary. -/
def ArgumentsAt (text : String) (n : Nat) : Prop :=
  ∀ (opened : Nat) (cur : Reader.Cursor), Boundary text.toList opened → cur.In text.toList →
    arguments text n opened (Cursor.at cur) = follow (Reader.arguments n opened cur)

theorem ArgumentsAt.term {n : Nat} (ih : ArgumentsAt text n) : TermAt text (n + 1) := by
  intro cur h
  have at_ := h.skip
  rw [ByteReader.term, Reader.term, skip_at]
  dsimp only
  cases here : cur.skip.rest with
  | nil =>
      rw [Cursor.at, here]
      rfl
  | cons c l =>
      obtain ⟨b, bs, bytes, lead, same⟩ := encode_first c l
      have rest : (Cursor.at cur.skip).rest = b :: bs := by rw [Cursor.at, here, bytes]
      have at_' : Reader.Cursor.In ⟨cur.skip.pos, c :: l⟩ text.toList := here ▸ at_
      rw [rest]
      dsimp only
      rcases same with ⟨rfl, rfl⟩ | ⟨wide, high⟩
      · split_ifs with dollar opened letter
        · rw [dollar] at at_'
          have inside := at_'.next
          exact name_at inside ▸ carry_bind (Reader.name_stays inside) fun _ _ => rfl
        · rw [opened] at at_'
          have inside := at_'.next.skip
          have moved := skip_at ⟨cur.skip.pos + 1, l⟩
          refine moved ▸ name_at inside ▸ carry_bind (Reader.name_stays inside) fun out behind => ?_
          exact ih _ _ at_.boundary behind ▸
            carry_bind ((Reader.reading_stays n).2 _ _ at_.boundary behind) fun _ _ => rfl
        · exact name_at at_ ▸ carry_bind (Reader.name_stays at_) fun _ _ => rfl
        · rw [lead]
          rfl
      · have none : ∀ d : Char, d.toNat < 128 → glyph b ≠ d ∧ c ≠ d :=
          fun d low => ⟨ne_of_wide wide low, ne_of_wide high low⟩
        rw [if_neg (none '$' (by decide)).1, if_neg (none '(' (by decide)).1, if_neg (not_name_of_wide wide),
          if_neg (none '$' (by decide)).2, if_neg (none '(' (by decide)).2, if_neg (not_name_of_wide high), lead]
        rfl

theorem ArgumentsAt.succ {n : Nat} (ih : ArgumentsAt text n) (ihTerm : TermAt text n) :
    ArgumentsAt text (n + 1) := by
  intro opened cur start h
  have at_ := h.skip
  rw [arguments, Reader.arguments, skip_at]
  dsimp only
  cases here : cur.skip.rest with
  | nil =>
      rw [Cursor.at, here]
      rfl
  | cons c l =>
      obtain ⟨b, bs, bytes, _, same⟩ := encode_first c l
      have rest : (Cursor.at cur.skip).rest = b :: bs := by rw [Cursor.at, here, bytes]
      have more : ByteReader.term text n (Cursor.at cur.skip) >>= (fun out => do
            let args ← arguments text n opened out.2
            return (out.1 :: args.1, args.2)) =
          follow (Reader.term n cur.skip >>= fun out => do
            let args ← Reader.arguments n opened out.2
            return (out.1 :: args.1, args.2)) := by
        refine ihTerm _ at_ ▸ carry_bind ((Reader.reading_stays n).1 _ at_) fun out behind => ?_
        exact ih _ _ start behind ▸
          carry_bind ((Reader.reading_stays n).2 _ _ start behind) fun _ _ => rfl
      rw [rest]
      dsimp only
      rcases same with ⟨rfl, rfl⟩ | ⟨wide, high⟩
      · split_ifs
        · rfl
        · exact more
      · rw [if_neg (ne_of_wide wide (by decide)), if_neg (ne_of_wide high (by decide))]
        exact more

/-- Terms and arguments are read at any nesting. The induction is on its bound. -/
theorem reading_at (n : Nat) : TermAt text n ∧ ArgumentsAt text n := by
  induction n with
  | zero => exact ⟨fun _ _ => rfl, fun _ _ _ _ => rfl⟩
  | succ n ih => exact ⟨ih.2.term, ih.2.succ ih.1⟩

/-! ### Whole texts -/

theorem start_eq (text : String) : start text = Cursor.at ⟨0, text.toList⟩ := by
  rw [start, toUTF8_toList, Cursor.at]

theorem finish_bind {fault : ParseFault} (h : cur.In cs) (a : α) :
    (finish fault (Cursor.at cur) >>= fun _ => pure a) = carry id (Reader.finish fault cur >>= fun _ => pure a) :=
  finish_at fault cur ▸ carry_bind (Reader.finish_keeps h) fun _ _ => rfl

/-- From its bytes a term is read as from its characters. -/
theorem termExpr_eq (text : String) : termExpr text = carry id (Reader.termExpr text.toList) := by
  have begins := Reader.Cursor.in_start text.toList
  rw [termExpr, start_eq, (reading_at _).1 _ begins, Reader.termExpr, String.length_toList]
  exact carry_bind (Reader.term_stays begins) fun out behind => finish_bind behind out.1

theorem equationExpr_eq (text : String) : equationExpr text = carry id (Reader.equationExpr text.toList) := by
  have begins := Reader.Cursor.in_start text.toList
  rw [equationExpr, start_eq, (reading_at _).1 _ begins, Reader.equationExpr, String.length_toList]
  refine carry_bind (Reader.term_stays begins) fun left behind => ?_
  change (separator text (Cursor.at left.2) >>= _) = carry id (Reader.separator left.2 >>= _)
  refine separator_at behind ▸ carry_bind (Reader.separator_keeps behind) fun cur further => ?_
  refine (reading_at _).1 _ further ▸ carry_bind (Reader.term_stays further) fun right last => ?_
  exact finish_bind last (left.1, right.1)

/-- Also line after line, with the bytes of the lines before. -/
theorem equationExprs_eq (offset : Nat) (lines : List (List Char)) :
    equationExprs offset lines = carry id (Reader.equationExprs offset lines) := by
  induction lines generalizing offset with
  | nil => rfl
  | cons line lines ih =>
      rw [equationExprs, Reader.equationExprs, equationExpr_eq, String.toList_ofList, ih]
      split
      · rfl
      · cases Reader.equationExpr (Reader.body line) with
        | error e => rfl
        | ok e =>
            cases Reader.equationExprs (offset + byteCount line) lines with
            | error e' => rfl
            | ok es => rfl

theorem carry_id (x : Except ParseError α) : carry id x = x.mapError .fault := by
  cases x <;> rfl

end ByteReader

/-! ### Positions of faults -/

/-- The position is a point between two characters of the text, or an end of it. -/
def ParseError.Within (e : ParseError) (text : String) : Prop :=
  e.position ≤ text.utf8ByteSize ∧ String.Pos.Raw.IsValid text ⟨e.position⟩

variable {text : String} {e : ParseError} {α : Type} {x : Except ParseError α} {P : α → Prop}

theorem within_of_boundary (h : Text.Boundary text.toList e.position) : e.Within text :=
  ⟨Text.byteCount_toList text ▸ h.le, h.isValid⟩

theorem within_of_keeps (keeps : Reader.Keeps text.toList P x) (h : x = .error e) : e.Within text := by
  rw [h] at keeps
  exact within_of_boundary keeps

/-- What cannot fail behind a part has its faults from the part. -/
theorem error_of_bind {β : Type} {f : α → Except ParseError β} (total : ∀ a, ∃ b, f a = .ok b)
    (h : (x >>= f) = .error e) : x = .error e := by
  cases x with
  | error e' => exact congrArg _ (Except.error.inj h)
  | ok a =>
      obtain ⟨b, same⟩ := total a
      cases same.symm.trans h

/-- Reading a text byte by byte and cutting out its parts by byte counts gives what reading its characters gives, for
a term, for an equation and line after line. So there is every part that is to be cut out: it lies in the text and
does not begin or end within a character. The position of every fault is a point of the whole text, and the one of a
list of equations is in the first line that cannot be read or at its end. -/
theorem read_between_characters (table : SymbolTable) (text : String) :
    (ByteReader.termExpr text = (Reader.termExpr text.toList).mapError .fault ∧
      ∀ e, table.readTerm text = .error e → e.Within text) ∧
    (ByteReader.equationExpr text = (Reader.equationExpr text.toList).mapError .fault ∧
      ∀ e, table.readEquation text = .error e → e.Within text) ∧
    ByteReader.equationExprs 0 (Text.linesWithEnds text.toList) =
      (Reader.equationExprs 0 (Text.linesWithEnds text.toList)).mapError .fault ∧
    ∀ e, table.readEquations text = .error e → e.Within text ∧
      ∃ before line, Reader.FirstFault (Text.linesWithEnds text.toList) before line e := by
  refine ⟨⟨?_, fun e => ?_⟩, ⟨?_, fun e => ?_⟩, ?_, fun e h => ?_⟩
  · rw [ByteReader.termExpr_eq, ByteReader.carry_id]
  · exact fun h => within_of_keeps (Reader.termExpr_keeps text.toList) (error_of_bind (fun _ => ⟨_, rfl⟩) h)
  · rw [ByteReader.equationExpr_eq, ByteReader.carry_id]
  · exact fun h => within_of_keeps (Reader.equationExpr_keeps text.toList) (error_of_bind (fun _ => ⟨_, rfl⟩) h)
  · rw [ByteReader.equationExprs_eq, ByteReader.carry_id]
  · obtain ⟨boundary, first⟩ := Reader.exists_firstFault (error_of_bind (fun _ => ⟨_, rfl⟩) h)
    exact ⟨within_of_boundary boundary, first⟩

theorem eq_error_of_test (h : (match x with | .error e' => decide (e' = e) | .ok _ => false) = true) :
    x = .error e := by
  cases x with
  | error e' => rw [of_decide_eq_true h]
  | ok a => cases h

/-- Two lines with characters of several bytes in their comments, and a third one with such a character in a term. -/
theorem commented_lines_between_characters :
    SymbolTable.empty.readEquations "a = b # é→\n# ÿ\n(f é" = .error ⟨.unexpectedByte 0xC3, 22⟩ ∧
    ParseError.Within ⟨.unexpectedByte 0xC3, 22⟩ "a = b # é→\n# ÿ\n(f é" ∧
    ∃ before line, Reader.FirstFault (Text.linesWithEnds "a = b # é→\n# ÿ\n(f é".toList) before line
      ⟨.unexpectedByte 0xC3, 22⟩ := by
  have read : SymbolTable.empty.readEquations "a = b # é→\n# ÿ\n(f é" = .error ⟨.unexpectedByte 0xC3, 22⟩ :=
    eq_error_of_test (by decide +kernel)
  exact ⟨read, (read_between_characters SymbolTable.empty _).2.2.2 _ read⟩

end OrderedCompletion
