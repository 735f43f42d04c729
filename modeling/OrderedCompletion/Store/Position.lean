import OrderedCompletion.Store.Basic

/-! Subterms of stored terms by position: lookup, replacement, enumeration and containment. -/

namespace OrderedCompletion.Store

def subtermAt (s : Store) : Ref → Position → Option Ref
  | r, [] => some r
  | r, i :: p =>
    match s.node? r with
    | some (.app _ args) =>
      match args[i]? with
      | some arg => s.subtermAt arg p
      | none => none
    | some (.var _) => none
    | none => none

/-- Puts `u` at a position. A position that leads nowhere is reported whole, and only a reference to no
term at the root is reported as such. -/
def replaceAt (r : Ref) (p : Position) (u : Ref) : ExceptT TermError StoreM Ref :=
  match p with
  | [] => return u
  | i :: q => do
    match (← getThe Store).node? r with
    | some (.app f args) =>
      match args[i]? with
      | some arg =>
        let out ← (replaceAt arg q u).adapt fun _ => .invalidPosition (i :: q)
        app f (args.set i out)
      | none => throw (.invalidPosition (i :: q))
    | some (.var _) => throw (.invalidPosition (i :: q))
    | none => throw (.unknownTerm r)

/-- The applications found from a reference within some depth, with their positions. -/
def appPositionsWithin (s : Store) : Nat → Ref → List (Position × Ref)
  | 0, _ => []
  | n + 1, r =>
    match s.node? r with
    | some (.app _ args) =>
      ([], r) :: args.zipIdx.flatMap fun (arg, i) =>
        (s.appPositionsWithin n arg).map fun (p, u) => (i :: p, u)
    | some (.var _) => []
    | none => []

/-- The positions of applications with the subterms there, each before the ones below it. -/
def appPositions (s : Store) (r : Ref) : List (Position × Ref) :=
  s.appPositionsWithin s.bound r

/-- Is `u` found from `r` within some depth? Last arguments are looked at first. -/
def containsWithin (s : Store) : Nat → Ref → Ref → Bool
  | 0, r, u => r = u
  | n + 1, r, u =>
    r = u || match s.node? r with
      | some (.app _ args) => args.reverse.any fun arg => s.containsWithin n arg u
      | some (.var _) => false
      | none => false

/-- Is `u` the term itself or one of its subterms? -/
def contains (s : Store) (r u : Ref) : Bool := s.containsWithin s.bound r u

end OrderedCompletion.Store
