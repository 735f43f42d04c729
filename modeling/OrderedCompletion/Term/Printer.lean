import OrderedCompletion.Term.Error

/-! Terms and pairs of terms as text. -/

namespace OrderedCompletion

/-- Why a term has no text. -/
inductive PrintError where
  | unknownTerm (ref : Nat)
  | unknownSymbol (f : Symbol)
  deriving DecidableEq, Repr

/-- How messages spell a symbol without a name: counted from one. -/
def spellSymbol (f : Symbol) : String := "Spur(" ++ (f.index + 1).repr ++ ")"

def PrintError.message : PrintError → String
  | .unknownTerm ref => "Unknown term id " ++ spellRef ref
  | .unknownSymbol f => "Unknown symbol for func id " ++ spellSymbol f

/-- A variable is written by its number. -/
def numberedVar (v : Var) : String := "$" ++ v.repr

def Head.print (symbols : SymbolTable) : Head → Except PrintError String
  | .symbol f =>
    match symbols.name? f with
    | some name => .ok name
    | none => .error (.unknownSymbol f)
  | .frozen v => .ok ("#" ++ v.repr)

namespace Term

mutual
/-- A constant is its name; an application is put in parentheses, its parts divided by blanks.
Variables are spelled by `spell`. The first fault from the left is reported. -/
def printWith (symbols : SymbolTable) (spell : Var → String) : Term → Except PrintError String
  | .var v => .ok (spell v)
  | .app f [] => f.print symbols
  | .app f (t :: ts) => do
    let head ← f.print symbols
    let first ← t.printWith symbols spell
    let rest ← printRest symbols spell ts
    return "(" ++ head ++ " " ++ first ++ rest ++ ")"
  | .missing ref => .error (.unknownTerm ref)

/-- Each further argument follows a blank. -/
def printRest (symbols : SymbolTable) (spell : Var → String) :
    List Term → Except PrintError String
  | [] => .ok ""
  | t :: ts => do
    let first ← t.printWith symbols spell
    let rest ← printRest symbols spell ts
    return " " ++ first ++ rest
end

def print (symbols : SymbolTable) (t : Term) : Except PrintError String :=
  t.printWith symbols numberedVar

/-- Two terms with a separator between them. -/
def printPair (symbols : SymbolTable) (sep : String) (lhs rhs : Term) :
    Except PrintError String := do
  let l ← lhs.print symbols
  let r ← rhs.print symbols
  return l ++ " " ++ sep ++ " " ++ r

end Term
end OrderedCompletion
