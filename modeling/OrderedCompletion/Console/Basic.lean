import OrderedCompletion.Console.Command
import OrderedCompletion.Engine.Query
import OrderedCompletion.Term.Pieces

/-! A line-oriented front end: axioms and settings, and a completion run that is built from them when it
is needed and dropped when they change. -/

namespace OrderedCompletion

/-- Why a file could not be read. -/
inductive FileError where
  | notFound
  | isDirectory
  | notDirectory
  | nameTooLong
  | nulInName
  | notText
  | other (message : String)
  deriving DecidableEq, Repr

def FileError.message : FileError → String
  | .notFound => "No such file or directory (os error 2)"
  | .isDirectory => "Is a directory (os error 21)"
  | .notDirectory => "Not a directory (os error 20)"
  | .nameTooLong => "File name too long (os error 36)"
  | .nulInName => "file name contained an unexpected NUL byte"
  | .notText => "stream did not contain valid UTF-8"
  | .other message => message

/-- The answer to a line. -/
inductive Reply where
  | silent
  | text (s : String)
  | error (s : String)
  | quit
  deriving DecidableEq, Repr

/-- A completion run with the order that it was built for and the ranks that the order uses. -/
structure Run where
  order : OrderKind
  precedence : Precedence
  engine : Engine
  deriving Inhabited

structure Console where
  symbols : SymbolTable := .empty
  store : Store := {}
  axioms : List Equation := []
  order : OrderKind := .kbo
  /-- Symbol names, greatest first. -/
  precedence : List String := []
  config : Config := {}
  run : Option Run := none
  deriving Inhabited

namespace Console

/-- The run, which is built if there is none. -/
def start (c : Console) : Run × Console :=
  match c.run with
  | some run => (run, c)
  | none =>
    let (precedence, symbols) := Precedence.ofNames c.precedence c.symbols
    let (engine, store) := (Engine.ofAxioms c.config c.axioms).run c.store
    let run : Run := ⟨c.order, precedence, engine⟩
    (run, { c with symbols, store, run := some run })

/-- What the calls of a run depend on. -/
def context (c : Console) (run : Run) : Context where
  symbols := c.symbols
  order := Order.ofKind (run.precedence.compare c.symbols) run.order

/-- The text of a failure without white space at its end. -/
def describe : Halt → String
  | .error e => String.ofList (Text.trimEnd e.message.toList)
  | .outOfFuel => "out of fuel"

/-- Makes a call of the run and keeps what becomes of it. -/
def call {α : Type} (c : Console) (action : Context → EngineM α) : Except String α × Console :=
  let (run, c) := c.start
  let ((outcome, engine), store) := ((action (c.context run)).run.run run.engine).run c.store
  (outcome.mapError describe, { c with store, run := some { run with engine } })

def statusName : Status → String
  | .running => "running"
  | .complete => "complete"
  | .groundComplete => "ground-complete"
  | .failed => "failed"

def helpText : String :=
"okb - Ordered Knuth-Bendix Completion

Commands:
  lhs = rhs          Add an axiom (also: eq lhs = rhs)
  load <file>        Add axioms from a file, one per line
  complete           Run completion and show the result
  step [n]           Run n completion steps (default 1)
  show               Show current equations and rules
  stats              Show engine counters
  nf <term>          Normal form (needs a complete system)
  reduce <term>      Rewrite with the current system
  equal <s> = <t>    Decide s = t, completing as needed
  order kbo|lpo      Choose the reduction order
  prec f > g > h     Set the symbol precedence
  unfailing on|off   Allow unorientable equations
  steps <n>|none     Step budget per command
  reset              Forget all axioms
  help               Show this help
  quit/exit          Exit the REPL

Syntax:
  $x                 Variable
  a                  Constant
  (f x y)            Application
  # ...              Comment
"

/-- What is known before a text is read. -/
def known (c : Console) : Reader.Known := ⟨⟨c.symbols, []⟩, c.store⟩

/-- Keeps what a text has made known that could not be read to its end. -/
def keep (c : Console) (pieces : List Reader.Piece) : Console :=
  let known := pieces.foldl Reader.Known.add c.known
  { c with symbols := known.scope.symbols, store := known.store }

/-- So for the lines of a file. -/
def keepAll (c : Console) (lines : List (List Reader.Piece)) : Console := lines.foldl keep c

def addAxiom (c : Console) (text : String) : Reply × Console :=
  match c.symbols.readEquation text with
  | .error e => (.error e.message, c.keep (Reader.equationPieces text.toList))
  | .ok read =>
    let (equation, store) := (Equation.ofTerms read.lhs read.rhs).run c.store
    let axioms := c.axioms ++ [equation]
    (.text ("Added axiom " ++ axioms.length.repr ++ "."),
      { c with symbols := read.symbols, store, axioms, run := none })

/-- Adds all equations of a file or none. -/
def load (readFile : String → Except FileError String) (c : Console) (path : String) :
    Reply × Console :=
  if path.isEmpty then (.error "Usage: load <file>", c)
  else match readFile path with
    | .error e => (.error ("Failed to read file '" ++ path ++ "': " ++ e.message), c)
    | .ok content =>
      match c.symbols.readEquations content with
      | .error e =>
        (.error ("Parse error in '" ++ path ++ "': " ++ e.message),
          c.keepAll (Reader.linePieces (Text.linesWithEnds content.toList)))
      | .ok (pairs, symbols) =>
        let (equations, store) := (Equation.listOfTerms pairs).run c.store
        (.text ("Loaded " ++ equations.length.repr ++ " equation(s) from '" ++ path ++ "'"),
          { c with symbols, store, axioms := c.axioms ++ equations, run := none })

/-- The equations and rules of the run, and how it stands. -/
def display (c : Console) : String × Console :=
  let (run, c) := c.start
  let body := run.engine.render c.symbols c.store
  ((if body.isEmpty then "(empty)" else body) ++ "\nStatus: " ++ statusName run.engine.status, c)

def complete (c : Console) : Reply × Console :=
  match c.call Engine.complete with
  | (.ok (), c) =>
    let (text, c) := c.display
    (.text text, c)
  | (.error text, c) => (.error text, c)

/-- Takes up to `n` steps, and tells how many there were. -/
def takeSteps (taken : Nat) : Nat → Console → Except String Nat × Console
  | 0, c => (.ok taken, c)
  | n + 1, c =>
    match c.call Engine.step with
    | (.ok true, c) => (.ok taken, c)
    | (.ok false, c) => takeSteps (taken + 1) n c
    | (.error text, c) => (.error text, c)

def badCount (command : String) : String :=
  "Invalid count for '" ++ command ++ "'. Usage: " ++ command ++ " <n>"

def step (c : Console) (arg : String) : Reply × Console :=
  match if arg.isEmpty then some 1 else readCount? arg with
  | none => (.error (badCount "step"), c)
  | some n =>
    match takeSteps 0 n c with
    | (.error text, c) => (.error text, c)
    | (.ok taken, c) =>
      let (run, c) := c.start
      (.text ("Took " ++ taken.repr ++ " step(s). Status: " ++ statusName run.engine.status), c)

def stats (c : Console) : Reply × Console :=
  let (run, c) := c.start
  let e := run.engine
  (.text ("Equations: " ++ e.equations.length.repr ++ ", rules: " ++ e.rules.length.repr ++
    ", steps: " ++ e.steps.repr ++ "\n" ++ e.metrics.text), c)

/-- A variable by the name it has in the query, or by its number if it has none there. -/
def spellNamed (names : List String) (v : Var) : String :=
  match names[v]? with
  | some name => "$" ++ name
  | none => "$_" ++ v.repr

/-- Reads a term and shows what a call makes of it. -/
def termQuery (c : Console) (text : String) (action : Context → Ref → EngineM Ref) :
    Reply × Console :=
  match c.symbols.readTerm text with
  | .error e => (.error e.message, c.keep (Reader.textPieces text.toList))
  | .ok read =>
    let (r, store) := (Store.ofTerm read.term).run c.store
    match { c with symbols := read.symbols, store }.call fun ctx => action ctx r with
    | (.ok r, c) => (.text ((c.store.term r).printOr c.symbols (spellNamed read.varNames)), c)
    | (.error text, c) => (.error text, c)

def equal (c : Console) (text : String) : Reply × Console :=
  match c.symbols.readEquation text with
  | .error e => (.error e.message, c.keep (Reader.equationPieces text.toList))
  | .ok read =>
    let (equation, store) := (Equation.ofTerms read.lhs read.rhs).run c.store
    match { c with symbols := read.symbols, store }.call fun ctx => Engine.equal ctx equation with
    | (.ok yes, c) => (.text (if yes then "true" else "false"), c)
    | (.error text, c) => (.error text, c)

def setOrder (c : Console) (arg : String) : Reply × Console :=
  match arg with
  | "kbo" => (.text "Order set to kbo.", { c with order := .kbo, run := none })
  | "lpo" => (.text "Order set to lpo.", { c with order := .lpo, run := none })
  | _ => (.error "Usage: order kbo|lpo", c)

def setPrecedence (c : Console) (arg : String) : Reply × Console :=
  let names := (Text.splitOn '>' arg.toList).map fun name => String.ofList (Text.trim name)
  if names.any (·.isEmpty) then (.error "Usage: prec f > g > h", c)
  else
    (.text ("Precedence: " ++ " > ".intercalate names), { c with precedence := names, run := none })

def setUnfailing (c : Console) (arg : String) : Reply × Console :=
  let set (unfailing : Bool) : Reply × Console :=
    (.text ("Unfailing completion " ++ arg ++ "."),
      { c with config := { c.config with unfailing }, run := none })
  match arg with
  | "on" => set true
  | "off" => set false
  | _ => (.error "Usage: unfailing on|off", c)

/-- The only setting that a run takes over while it lasts. -/
def setSteps (c : Console) (arg : String) : Reply × Console :=
  let set (maxSteps : Option Nat) : Console :=
    { c with
      config := { c.config with maxSteps }
      run := c.run.map fun run =>
        { run with engine := run.engine.setBudget maxSteps c.config.timeLimit } }
  if arg = "none" then (.text "Step budget removed.", set none)
  else match readCount? arg with
    | some n => (.text ("Step budget set to " ++ n.repr ++ "."), set (some n))
    | none => (.error (badCount "steps"), c)

/-- Carries out a command. -/
def execute (readFile : String → Except FileError String) (c : Console) :
    Command → Reply × Console
  | .none => (.silent, c)
  | .help => (.text helpText, c)
  | .quit => (.quit, c)
  | .assume text => c.addAxiom text
  | .load path => c.load readFile path
  | .complete => c.complete
  | .step arg => c.step arg
  | .display =>
    let (text, c) := c.display
    (.text text, c)
  | .stats => c.stats
  | .normalForm text => c.termQuery text Engine.normalForm
  | .reduce text => c.termQuery text Engine.reduce
  | .equal text => c.equal text
  | .order arg => c.setOrder arg
  | .precedence arg => c.setPrecedence arg
  | .unfailing arg => c.setUnfailing arg
  | .steps arg => c.setSteps arg
  | .reset => (.text "Axioms cleared.", { c with axioms := [], run := none })
  | .unknown word => (.error ("Unknown command '" ++ word ++ "'. Type 'help' for commands."), c)

/-- Answers a line of input. -/
def answer (readFile : String → Except FileError String) (c : Console) (line : String) :
    Reply × Console :=
  c.execute readFile (.ofLine line)

/-- Answers lines in turn up to the first failure or the wish to quit. -/
def answerAll (readFile : String → Except FileError String) (said : List String) :
    Console → List (List Char) → Reply × Console
  | c, [] => (if said.isEmpty then .silent else .text ("\n".intercalate said), c)
  | c, line :: rest =>
    match c.answer readFile (String.ofList line) with
    | (.silent, c) => answerAll readFile said c rest
    | (.text s, c) => answerAll readFile (said ++ [s]) c rest
    | (.error s, c) => (.error s, c)
    | (.quit, c) => (.quit, c)

/-- Answers the lines of a cell together. -/
def answerCell (readFile : String → Except FileError String) (c : Console) (cell : String) :
    Reply × Console :=
  answerAll readFile [] c (Text.lines cell.toList)

end Console
end OrderedCompletion
