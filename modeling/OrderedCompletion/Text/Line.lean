/-! Cutting text into lines and at single characters. -/

namespace OrderedCompletion.Text

/-- Bytes of a text in UTF-8. -/
def byteCount : List Char → Nat
  | [] => 0
  | c :: cs => c.utf8Size + byteCount cs

/-- Cuts at every occurrence of `sep`, which is dropped; there is one piece more than cuts. -/
def splitOn (sep : Char) : List Char → List (List Char)
  | [] => [[]]
  | c :: cs =>
    if c = sep then [] :: splitOn sep cs
    else match splitOn sep cs with
      | piece :: pieces => (c :: piece) :: pieces
      | [] => [[c]]

/-- Lines with their line feeds. Concatenated they are the text, and only the last may lack one. -/
def linesWithEnds : List Char → List (List Char)
  | [] => []
  | c :: cs =>
    if c = '\n' then [c] :: linesWithEnds cs
    else match linesWithEnds cs with
      | line :: rest => (c :: line) :: rest
      | [] => [[c]]

/-- A line without its line feed, and without a carriage return before that. -/
def dropEnd (line : List Char) : List Char :=
  match line.reverse with
  | '\n' :: '\r' :: rest => rest.reverse
  | '\n' :: rest => rest.reverse
  | _ => line

/-- Lines without their ends. -/
def lines (cs : List Char) : List (List Char) := (linesWithEnds cs).map dropEnd

end OrderedCompletion.Text
