import OrderedCompletion.Term.Basic

/-! Terms by name, as they are written, and the numbering that makes terms of them. -/

namespace OrderedCompletion

/-- A written term: variables and symbols are still names. -/
inductive Expr where
  | var (name : String)
  | app (f : String) (args : List Expr)
  deriving Repr, Inhabited

/-- The names met so far. Variables are numbered by first occurrence. -/
structure Scope where
  symbols : SymbolTable
  varNames : List String

namespace Scope

/-- The number of a variable name, which is the next one if the name is new. -/
def number (scope : Scope) (name : String) : Var × Scope :=
  if name ∈ scope.varNames then (scope.varNames.idxOf name, scope)
  else (scope.varNames.length, { scope with varNames := scope.varNames ++ [name] })

/-- The symbol of a name, which enters the table if it is new. -/
def intern (scope : Scope) (name : String) : Symbol × Scope :=
  let (f, symbols) := scope.symbols.intern name
  (f, { scope with symbols })

end Scope

namespace Expr

mutual
/-- Numbers the names from left to right, a head before its arguments. -/
def toTerm : Expr → Scope → Term × Scope
  | .var name, scope =>
    let (v, scope) := scope.number name
    (.var v, scope)
  | .app f args, scope =>
    let (f, scope) := scope.intern f
    let (args, scope) := toTerms args scope
    (.app (.symbol f) args, scope)

def toTerms : List Expr → Scope → List Term × Scope
  | [], scope => ([], scope)
  | e :: es, scope =>
    let (t, scope) := e.toTerm scope
    let (ts, scope) := toTerms es scope
    (t :: ts, scope)
end

end Expr
end OrderedCompletion
