import OrderedCompletion.Term.Expr
import OrderedCompletion.Text.Line
import OrderedCompletion.Text.White

/-! Reading terms and equations. A term is a variable `$x`, a constant `a` or an application
`(f t ...)`; an equation has `=` or `->` between its sides; a comment runs from `#` to the end of its
line. -/

namespace OrderedCompletion

/-- What is wrong with a text. -/
inductive ParseFault where
  | unexpectedEnd
  | expectedName
  /-- Reported where the parenthesis was opened. -/
  | unclosed
  /-- The first byte of a character that starts no term. -/
  | unexpectedByte (b : Nat)
  | expectedSeparator
  | afterTerm
  | afterEquation
  deriving DecidableEq, Repr

/-- A fault with the number of bytes before it. -/
structure ParseError where
  fault : ParseFault
  position : Nat
  deriving DecidableEq, Repr

/-- A byte is shown as the character of that number. -/
def ParseFault.message : ParseFault → String
  | .unexpectedEnd => "Unexpected end of input"
  | .expectedName => "Expected identifier"
  | .unclosed => "Unclosed parenthesis"
  | .unexpectedByte b => "Unexpected character: '" ++ String.singleton (Char.ofNat b) ++ "'"
  | .expectedSeparator => "Expected '=' or '->'"
  | .afterTerm => "Unexpected characters after term"
  | .afterEquation => "Unexpected characters after equation"

def ParseError.message (e : ParseError) : String :=
  "Parse error at position " ++ e.position.repr ++ ": " ++ e.fault.message

namespace Reader

/-- Blanks between tokens. -/
def isBlank (c : Char) : Bool :=
  c = ' ' || c = '\t' || c = '\n' || c = '\x0c' || c = '\r'

/-- Names consist of ASCII letters, digits and these signs. -/
def isNameChar (c : Char) : Bool :=
  c.isAlphanum || "_*+/^~'.!?<&|".toList.contains c

/-- The first byte of a character in UTF-8. -/
def leadByte (c : Char) : Nat :=
  let n := c.toNat
  if n < 0x80 then n
  else if n < 0x800 then 0xC0 + n / 0x40
  else if n < 0x10000 then 0xE0 + n / 0x1000
  else 0xF0 + n / 0x40000

/-- What is left of a text, with the number of bytes before it. -/
structure Cursor where
  pos : Nat
  rest : List Char

mutual
/-- Moves past blanks and comments. -/
def skipBlank (pos : Nat) : List Char → Cursor
  | [] => ⟨pos, []⟩
  | c :: cs =>
    if isBlank c then skipBlank (pos + 1) cs
    else if c = '#' then skipComment (pos + 1) cs
    else ⟨pos, c :: cs⟩

/-- Moves past the rest of a comment, and on. -/
def skipComment (pos : Nat) : List Char → Cursor
  | [] => ⟨pos, []⟩
  | c :: cs => if c = '\n' then skipBlank (pos + 1) cs else skipComment (pos + c.utf8Size) cs
end

def Cursor.skip (cur : Cursor) : Cursor := skipBlank cur.pos cur.rest

/-- The longest name at the cursor. -/
def name (cur : Cursor) : Except ParseError (String × Cursor) :=
  match cur.rest.takeWhile isNameChar with
  | [] => .error ⟨.expectedName, cur.pos⟩
  | c :: cs =>
    .ok (String.ofList (c :: cs), ⟨cur.pos + (c :: cs).length, cur.rest.dropWhile isNameChar⟩)

mutual
/-- The term at the cursor. The number bounds the nesting. -/
def term : Nat → Cursor → Except ParseError (Expr × Cursor)
  | 0, cur => .error ⟨.unexpectedEnd, cur.pos⟩
  | n + 1, cur =>
    let cur := cur.skip
    match cur.rest with
    | [] => .error ⟨.unexpectedEnd, cur.pos⟩
    | c :: cs =>
      if c = '$' then do
        let (x, cur) ← name ⟨cur.pos + 1, cs⟩
        return (.var x, cur)
      else if c = '(' then do
        let (f, inner) ← name (Cursor.skip ⟨cur.pos + 1, cs⟩)
        let (args, cur) ← arguments n cur.pos inner
        return (.app f args, cur)
      else if isNameChar c then do
        let (a, cur) ← name cur
        return (.app a [], cur)
      else .error ⟨.unexpectedByte (leadByte c), cur.pos⟩

/-- The terms up to the closing parenthesis of the one opened at `opened`. -/
def arguments : Nat → Nat → Cursor → Except ParseError (List Expr × Cursor)
  | 0, opened, _ => .error ⟨.unclosed, opened⟩
  | n + 1, opened, cur =>
    let cur := cur.skip
    match cur.rest with
    | [] => .error ⟨.unclosed, opened⟩
    | c :: cs =>
      if c = ')' then .ok ([], ⟨cur.pos + 1, cs⟩)
      else do
        let (arg, cur) ← term n cur
        let (args, cur) ← arguments n opened cur
        return (arg :: args, cur)
end

/-- Only blanks and comments may be left. -/
def finish (fault : ParseFault) (cur : Cursor) : Except ParseError Unit :=
  let cur := cur.skip
  match cur.rest with
  | [] => .ok ()
  | _ :: _ => .error ⟨fault, cur.pos⟩

/-- The sign between the sides of an equation. -/
def separator (cur : Cursor) : Except ParseError Cursor :=
  let cur := cur.skip
  match cur.rest with
  | '-' :: '>' :: cs => .ok ⟨cur.pos + 2, cs⟩
  | '=' :: cs => .ok ⟨cur.pos + 1, cs⟩
  | _ => .error ⟨.expectedSeparator, cur.pos⟩

/-- Reads a text that is one term. -/
def termExpr (cs : List Char) : Except ParseError Expr := do
  let (e, cur) ← term (cs.length + 1) ⟨0, cs⟩
  finish .afterTerm cur
  return e

/-- Reads a text that is one equation. -/
def equationExpr (cs : List Char) : Except ParseError (Expr × Expr) := do
  let (lhs, cur) ← term (cs.length + 1) ⟨0, cs⟩
  let cur ← separator cur
  let (rhs, cur) ← term (cs.length + 1) cur
  finish .afterEquation cur
  return (lhs, rhs)

/-- A line without its comment. -/
def body (line : List Char) : List Char := line.takeWhile (· ≠ '#')

/-- Reads one equation a line; `offset` bytes precede the first line. Lines of white space and comments
are passed over. -/
def equationExprs (offset : Nat) : List (List Char) → Except ParseError (List (Expr × Expr))
  | [] => .ok []
  | line :: rest =>
    if (Text.trim (body line)).isEmpty then equationExprs (offset + Text.byteCount line) rest
    else
      match equationExpr (body line) with
      | .error e => .error { e with position := offset + e.position }
      | .ok e => do
        let es ← equationExprs (offset + Text.byteCount line) rest
        return e :: es

end Reader

/-- A term that was read, with the names of its variables by number. -/
structure ReadTerm where
  term : Term
  varNames : List String
  symbols : SymbolTable

/-- An equation that was read. Both sides share the names. -/
structure ReadEquation where
  lhs : Term
  rhs : Term
  varNames : List String
  symbols : SymbolTable

namespace SymbolTable

/-- Makes an equation of two written terms. -/
def equationOf (table : SymbolTable) (lhs rhs : Expr) : ReadEquation :=
  let (l, scope) := lhs.toTerm ⟨table, []⟩
  let (r, scope) := rhs.toTerm scope
  ⟨l, r, scope.varNames, scope.symbols⟩

/-- Makes equations of pairs of written terms, each with variables of its own. -/
def equationsOf (table : SymbolTable) : List (Expr × Expr) → List (Term × Term) × SymbolTable
  | [] => ([], table)
  | (lhs, rhs) :: rest =>
    let read := table.equationOf lhs rhs
    let (es, table) := read.symbols.equationsOf rest
    ((read.lhs, read.rhs) :: es, table)

/-- Reads a term; new symbol names enter the table. -/
def readTerm (table : SymbolTable) (text : String) : Except ParseError ReadTerm := do
  let e ← Reader.termExpr text.toList
  let (t, scope) := e.toTerm ⟨table, []⟩
  return ⟨t, scope.varNames, scope.symbols⟩

/-- Reads an equation; new symbol names enter the table. -/
def readEquation (table : SymbolTable) (text : String) : Except ParseError ReadEquation := do
  let (lhs, rhs) ← Reader.equationExpr text.toList
  return table.equationOf lhs rhs

/-- Reads one equation a line, each with variables of its own. -/
def readEquations (table : SymbolTable) (text : String) :
    Except ParseError (List (Term × Term) × SymbolTable) := do
  let es ← Reader.equationExprs 0 (Text.linesWithEnds text.toList)
  return table.equationsOf es

end SymbolTable
end OrderedCompletion
