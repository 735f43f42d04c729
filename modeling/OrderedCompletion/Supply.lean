import OrderedCompletion.Term.Basic

/-! Fresh variables. -/

namespace OrderedCompletion

/-- Variable numbers are 32-bit words; a counting source stops before the last of them. -/
def lastVar : Var := 0xFFFFFFFF

/-- Where the default source starts; smaller numbers are left to callers. -/
def firstFresh : Var := 0x1000000

/-- Where fresh variables come from. -/
inductive VarSource where
  | counting (next : Var)
  | listed (vars : List Var)
  deriving DecidableEq, Repr

namespace VarSource

def next? : VarSource → Option (Var × VarSource)
  | .counting n => if n < lastVar then some (n, .counting (n + 1)) else none
  | .listed [] => none
  | .listed (v :: vs) => some (v, .listed vs)

/-- How many variables are left. -/
def remaining : VarSource → Nat
  | .counting n => lastVar - n
  | .listed vs => vs.length

/-- The first of the next `n` variables that is not reserved, with what is left after it. -/
def nextOutside (reserved : List Var) : Nat → VarSource → Option (Var × VarSource)
  | 0, _ => none
  | n + 1, source =>
    match source.next? with
    | none => none
    | some (v, rest) => if v ∈ reserved then nextOutside reserved n rest else some (v, rest)

end VarSource

/-- A source together with the variables that it must not hand out. -/
structure Supply where
  source : VarSource := .counting firstFresh
  reserved : List Var := []
  deriving DecidableEq, Repr, Inhabited

/-- No variable is left. -/
inductive Exhausted where
  | exhausted
  deriving DecidableEq, Repr

def Exhausted.message : Exhausted → String
  | .exhausted => "fresh variable supply exhausted"

namespace Supply

def reserve (supply : Supply) (vs : List Var) : Supply :=
  { supply with reserved := vs.foldl (fun r v => if v ∈ r then r else v :: r) supply.reserved }

def isReserved (supply : Supply) (v : Var) : Bool := v ∈ supply.reserved

/-- Draws the next variable that is not reserved. -/
def draw (supply : Supply) : Except Exhausted Var × Supply :=
  match supply.source.nextOutside supply.reserved supply.source.remaining with
  | some (v, source) => (.ok v, { supply with source })
  | none => (.error .exhausted, { supply with source := .listed [] })

end Supply
end OrderedCompletion
