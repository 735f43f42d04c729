import OrderedCompletion.Console.Basic

/-! The dialogue of the console: a prompt before each line and an answer after it. -/

namespace OrderedCompletion

/-- What is written in answer, and nothing where the dialogue ends. -/
def Reply.written : Reply → Option String
  | .silent => some ""
  | .text s => some (s ++ "\n")
  | .error s => some ("Error: " ++ s ++ "\n")
  | .quit => none

namespace Console

def banner : String := "okb - ordered Knuth-Bendix completion. Type 'help' for commands.\n"

def prompt : String := "okb> "

/-- Cuts bytes after every line feed. -/
def byteLines : List UInt8 → List (List UInt8)
  | [] => []
  | b :: bs =>
    if b = 10 then [b] :: byteLines bs
    else match byteLines bs with
      | line :: rest => (b :: line) :: rest
      | [] => [[b]]

/-- What a dialogue wrote, and whether it ended at bytes that are no text. -/
structure Transcript where
  output : String
  failure : Option FileError := none
  console : Console

/-- The rest of a dialogue after some output. -/
def converseFrom (readFile : String → Except FileError String) (output : String) :
    Console → List (List UInt8) → Transcript
  | c, [] => { output := output ++ prompt ++ "\n", console := c }
  | c, line :: rest =>
    let output := output ++ prompt
    match String.fromUTF8? ⟨line.toArray⟩ with
    | none => { output, failure := some .notText, console := c }
    | some text =>
      let (reply, c) := c.answer readFile text
      match reply.written with
      | some said => converseFrom readFile (output ++ said) c rest
      | none => { output, console := c }

/-- A whole dialogue over the bytes of its input. -/
def converse (readFile : String → Except FileError String) (c : Console) (input : List UInt8) :
    Transcript :=
  converseFrom readFile banner c (byteLines input)

end Console
end OrderedCompletion
