import OrderedCompletion.Store.Position
import OrderedCompletion.Unification
import OrderedCompletion.Workspace

/-! Critical pairs: the left side of one equation superposed on the left side of another. -/

namespace OrderedCompletion

/-- A place in a term whose subterm unifies with another term. -/
structure Overlap where
  position : Position
  subst : Subst
  deriving DecidableEq, Repr

namespace Store

/-- The overlaps of `a` at the given places. -/
def overlapsAt (a : Ref) : List (Position × Ref) → StoreM (List Overlap)
  | [] => return []
  | (position, r) :: rest => do
    match ← (unify? r a).run with
    | some subst => return { position, subst } :: (← overlapsAt a rest)
    | none => overlapsAt a rest

/-- The applications in `g` that unify with `a`, outer ones first. -/
def overlaps (g a : Ref) : StoreM (List Overlap) := do
  overlapsAt a ((← get).appPositions g)

end Store

inductive OverlapError where
  | exhausted
  | term (e : TermError)
  deriving DecidableEq, Repr

def OverlapError.message : OverlapError → String
  | .exhausted => Exhausted.exhausted.message
  | .term e => e.message

/-- Appends an equation unless the list has it. -/
def addNew (es : List Equation) (e : Equation) : List Equation :=
  if e ∈ es then es else es ++ [e]

namespace Superposition

def renameApart (e : Equation) : TermM Workspace OverlapError Equation :=
  (Workspace.renameApart e).adapt fun _ => .exhausted

/-- The critical pair of an overlap of `ab` into `gd`. There is none if the instance of one of them is
trivial or increases. -/
def pairAt (o : Order) (gd ab : Equation) (here : Overlap) :
    TermM Workspace OverlapError (Option Equation) := do
  let gd' ← gd.apply here.subst
  if gd'.isTrivial then return none
  if ← Workspace.ask o gd'.rhs gd'.lhs then return none
  let ab' ← ab.apply here.subst
  if ab'.isTrivial then return none
  if ← Workspace.ask o ab'.rhs ab'.lhs then return none
  match ← (Store.replaceAt gd.lhs here.position ab.rhs).run with
  | .ok t => return some ⟨gd'.rhs, ← Store.apply here.subst t⟩
  | .error e => throw (.term e)

/-- The pairs of a list of overlaps, added to those found before. -/
def pairsAt (o : Order) (gd ab : Equation) (found : List Equation) :
    List Overlap → TermM Workspace OverlapError (List Equation)
  | [] => return found
  | here :: rest => do
    match ← pairAt o gd ab here with
    | some pair => pairsAt o gd ab (addNew found pair) rest
    | none => pairsAt o gd ab found rest

end Superposition

/-- The critical pairs of `ab` into `gd`, each of them once. Both are given fresh variables first. -/
def criticalPairs (o : Order) (gd ab : Equation) : TermM Workspace OverlapError (List Equation) := do
  let ab ← Superposition.renameApart ab
  let gd ← Superposition.renameApart gd
  Superposition.pairsAt o gd ab [] (← Store.overlaps gd.lhs ab.lhs)

/-- Superposition that never treats the same ordered pair of donors twice. -/
structure Superposer where
  workspace : Workspace := {}
  seen : Index (Equation × Equation) Unit := .empty
  deriving Inhabited

instance : Digest (Equation × Equation) where
  digest p := 998244353 * digest p.1 + digest p.2

namespace Superposer

/-- Runs an action on the workspace of a superposition. -/
def onWorkspace {α : Type} (x : TermM Workspace OverlapError α) : TermM Superposer OverlapError α :=
  x.within Superposer.workspace (fun workspace s => { s with workspace }) id

/-- Adds the critical pairs of a pair of donors, unless it was treated before. -/
def superpose (o : Order) (found : List Equation) (donors : Equation × Equation) :
    TermM Superposer OverlapError (List Equation) := do
  if (← get).seen.contains donors then return found
  modify fun s => { s with seen := s.seen.insert donors () }
  let pairs ← onWorkspace (criticalPairs o donors.1 donors.2)
  return pairs.foldl addNew found

/-- Superposes pairs of donors in turn and collects what they yield. -/
def superposeAll (o : Order) (donors : List (Equation × Equation)) :
    TermM Superposer OverlapError (List Equation) :=
  donors.foldlM (superpose o) []

/-- An equation and each rule, in both roles. -/
def ruleDonors (rules : List Equation) (ab : Equation) : List (Equation × Equation) :=
  rules.flatMap fun gd => [(ab, gd), (gd, ab)]

/-- An equation in both directions and each equation in both directions, itself among them, and then
each rule; all of them in both roles. -/
def allDonors (equations rules : List Equation) (ab : Equation) : List (Equation × Equation) :=
  let sides := [ab, ab.reversed]
  let others := sides.foldl addNew equations
  (others.flatMap fun gd => sides.flatMap fun side =>
    [gd, gd.reversed].flatMap fun other => [(side, other), (other, side)]) ++
  rules.flatMap fun gd => sides.flatMap fun side => [(side, gd), (gd, side)]

def againstRules (o : Order) (rules : List Equation) (ab : Equation) :
    TermM Superposer OverlapError (List Equation) :=
  superposeAll o (ruleDonors rules ab)

def againstAll (o : Order) (equations rules : List Equation) (ab : Equation) :
    TermM Superposer OverlapError (List Equation) :=
  superposeAll o (allDonors equations rules ab)

end Superposer
end OrderedCompletion
