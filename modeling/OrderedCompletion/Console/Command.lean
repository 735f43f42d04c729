import OrderedCompletion.Text.White

/-! The commands of the console. -/

namespace OrderedCompletion

/-- A line of input by its first word, with the rest of the line. -/
inductive Command where
  /-- An empty line or a comment. -/
  | none
  | help
  | quit
  /-- Add the equation as an axiom. -/
  | assume (text : String)
  | load (path : String)
  | complete
  | step (arg : String)
  | display
  | stats
  | normalForm (text : String)
  | reduce (text : String)
  | equal (text : String)
  | order (arg : String)
  | precedence (arg : String)
  | unfailing (arg : String)
  | steps (arg : String)
  | reset
  | unknown (word : String)
  deriving DecidableEq, Repr

namespace Command

/-- The command of a first word. -/
def ofWord? (word rest : String) : Option Command :=
  match word with
  | "help" => some .help
  | "quit" => some .quit
  | "exit" => some .quit
  | "eq" => some (.assume rest)
  | "load" => some (.load rest)
  | "complete" => some .complete
  | "step" => some (.step rest)
  | "show" => some .display
  | "stats" => some .stats
  | "nf" => some (.normalForm rest)
  | "reduce" => some (.reduce rest)
  | "equal" => some (.equal rest)
  | "order" => some (.order rest)
  | "prec" => some (.precedence rest)
  | "unfailing" => some (.unfailing rest)
  | "steps" => some (.steps rest)
  | "reset" => some .reset
  | _ => Option.none

/-- Reads a line. One that starts with no command is an axiom if it has an equality sign. -/
def ofLine (line : String) : Command :=
  let cs := Text.trim line.toList
  if cs.isEmpty || cs.head? = some '#' then .none
  else
    let (word, rest) := Text.splitAtWhite cs
    match ofWord? (String.ofList word) (String.ofList (Text.trim rest)) with
    | some command => command
    | Option.none =>
      if cs.contains '=' then .assume (String.ofList cs) else .unknown (String.ofList word)

end Command

/-- A decimal number below 2^64, with or without a plus sign. -/
def readCount? (text : String) : Option Nat :=
  let digits := match text.toList with
    | '+' :: cs => cs
    | cs => cs
  if digits.isEmpty || !digits.all Char.isDigit then none
  else
    let n := digits.foldl (fun n c => 10 * n + (c.toNat - '0'.toNat)) 0
    if n < 0x10000000000000000 then some n else none

end OrderedCompletion
