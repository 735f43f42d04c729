import OrderedCompletion.Store.Basic
import OrderedCompletion.Term.Reader

/-! What a reader makes known on the way to a fault: names enter the table and terms the store as they are met, and
stay there. -/

namespace OrderedCompletion

namespace Reader

inductive Piece where
  /-- The head of an application that is not read to its end. -/
  | head (f : String)
  /-- A term that is, with all its names. -/
  | whole (e : Expr)
  deriving Repr

mutual
/-- The pieces of the term at the cursor. The number bounds the nesting. -/
def termPieces : Nat → Cursor → List Piece
  | 0, _ => []
  | n + 1, cur =>
    match term (n + 1) cur with
    | .ok (e, _) => [.whole e]
    | .error _ =>
      match cur.skip.rest with
      | '(' :: cs =>
        match name (Cursor.skip ⟨cur.skip.pos + 1, cs⟩) with
        | .ok (f, inner) => .head f :: argumentPieces n inner
        | .error _ => []
      | _ => []

/-- The pieces of the terms at the cursor, up to the one that has a fault. -/
def argumentPieces : Nat → Cursor → List Piece
  | 0, _ => []
  | n + 1, cur =>
    match term n cur with
    | .ok (arg, cur) => .whole arg :: argumentPieces n cur
    | .error _ => termPieces n cur
end

/-- The pieces of a text that should be a term. -/
def textPieces (cs : List Char) : List Piece := termPieces (cs.length + 1) ⟨0, cs⟩

/-- The pieces of a text that should be an equation. -/
def equationPieces (cs : List Char) : List Piece :=
  match term (cs.length + 1) ⟨0, cs⟩ with
  | .error _ => textPieces cs
  | .ok (lhs, cur) =>
    match separator cur with
    | .error _ => [.whole lhs]
    | .ok cur => .whole lhs :: termPieces (cs.length + 1) cur

/-- The pieces of each line up to the first one that has a fault. -/
def linePieces : List (List Char) → List (List Piece)
  | [] => []
  | line :: rest =>
    if (Text.trim (body line)).isEmpty then linePieces rest
    else
      equationPieces (body line) ::
        match equationExpr (body line) with
        | .ok _ => linePieces rest
        | .error _ => []

/-- What is known while a text is read. -/
structure Known where
  scope : Scope
  store : Store

/-- The names and the term of a piece become known. -/
def Known.add (known : Known) : Piece → Known
  | .head f => { known with scope := (known.scope.intern f).2 }
  | .whole e =>
    let (t, scope) := e.toTerm known.scope
    { scope, store := ((Store.ofTerm t).run known.store).2 }

end Reader
end OrderedCompletion
