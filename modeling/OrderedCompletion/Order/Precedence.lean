import OrderedCompletion.Term.Basic

/-! Comparison of the heads of applications. -/

namespace OrderedCompletion

/-- Compares two heads with the numbers of their arguments; `none` where they are incomparable. -/
abbrev HeadComparison := Head → Nat → Head → Nat → Option Ordering

/-- Explicit ranks of symbols, greater ranks for greater symbols. Of two entries for a symbol the first
one counts. -/
structure Precedence where
  ranks : List (Symbol × Nat)
  deriving Repr, Inhabited

namespace Precedence

def empty : Precedence := ⟨[]⟩

/-- Ranks symbols from greatest to least, a repeated one at its last place. -/
def ranksOf : List Symbol → List (Symbol × Nat)
  | [] => []
  | f :: fs => ranksOf fs ++ [(f, fs.length + 1)]

/-- Ranks names from greatest to least. The names enter the table. -/
def ofNames (names : List String) (symbols : SymbolTable) : Precedence × SymbolTable :=
  let (fs, symbols) := symbols.internAll names
  (⟨ranksOf fs⟩, symbols)

def rank? (p : Precedence) (f : Symbol) : Option Nat := p.ranks.lookup f

/-- A symbol without a name comes before every name. -/
def compareNames : Option String → Option String → Ordering
  | none, none => .eq
  | none, some _ => .lt
  | some _, none => .gt
  | some a, some b => Ord.compare a b

/-- A symbol is compared with itself by the number of arguments. Of two symbols a ranked one beats one
without rank; two without rank are compared by name and then by the number of arguments. A rigid
variable is comparable only with itself. -/
def compare (symbols : SymbolTable) (p : Precedence) : HeadComparison
  | .frozen v, _, .frozen w, _ => if v = w then some .eq else none
  | .frozen _, _, .symbol _, _ => none
  | .symbol _, _, .frozen _, _ => none
  | .symbol f, m, .symbol g, n =>
    if f = g then some (Ord.compare m n)
    else some <| match p.rank? f, p.rank? g with
      | some a, some b => Ord.compare a b
      | some _, none => .gt
      | none, some _ => .lt
      | none, none => (compareNames (symbols.name? f) (symbols.name? g)).then (Ord.compare m n)

end Precedence
end OrderedCompletion
