import OrderedCompletion.Slots
import OrderedCompletion.Store.Vars

/-! Substitutions of stored terms for variables. -/

namespace OrderedCompletion

/-- References bound to variables. Newer bindings come first, and of two for a variable the newer one
counts. -/
structure Subst where
  bindings : List (Var × Ref) := []
  deriving DecidableEq, Repr, Inhabited

namespace Subst

def empty : Subst := {}

def find? (σ : Subst) (v : Var) : Option Ref := σ.bindings.lookup v

def isBound (σ : Subst) (v : Var) : Bool := (σ.find? v).isSome

def isEmpty (σ : Subst) : Bool := σ.bindings.isEmpty

/-- Binds a variable, in place of what it was bound to. -/
def bind (σ : Subst) (v : Var) (r : Ref) : Subst := ⟨(v, r) :: σ.bindings⟩

/-- Binds variables in the order of the list, so that later entries win. -/
def ofList (l : List (Var × Ref)) : Subst := l.foldl (fun σ (v, r) => σ.bind v r) empty

/-- The bound variables in increasing order. -/
def domain (σ : Subst) : List Var := sortVars (σ.bindings.map (·.1))

/-- The number of bound variables. -/
def size (σ : Subst) : Nat := σ.domain.length

/-- The bindings of the variables of a list, in its order. -/
def bindingsOf (σ : Subst) (vs : List Var) : List (Var × Ref) :=
  vs.filterMap fun v => (σ.find? v).map (v, ·)

/-- The bindings by increasing variable. -/
def toList (σ : Subst) : List (Var × Ref) := σ.bindingsOf σ.domain

/-- The bindings by slot, the variables having been added as they were bound. -/
def walk (σ : Subst) : List (Var × Ref) :=
  σ.bindingsOf (Slots.walk (σ.bindings.reverse.map (·.1)))

end Subst

namespace Store

/-- Replaces bound variables down to some depth. A term without a noted variable that is bound stays as it
is. -/
def applyWithin (σ : Subst) : Nat → Ref → StoreM Ref
  | 0, r => return r
  | n + 1, r => do
    let vs ← vars r
    if !vs.any σ.isBound then return r
    match (← get).node? r with
    | some (.var v) => return (σ.find? v).getD r
    | some (.app f args) =>
      let args ← args.mapM (applyWithin σ n)
      app f args
    | none => return r

/-- Replaces all bound variables at once; what comes in is not substituted again. -/
def apply (σ : Subst) (r : Ref) : StoreM Ref := do
  if σ.isEmpty then return r
  applyWithin σ (← get).bound r

/-- Applies a substitution until nothing changes, `n` times at most. -/
def applyUpTo (σ : Subst) : Nat → Ref → StoreM Ref
  | 0, r => return r
  | n + 1, r => do
    let out ← apply σ r
    if out = r then return r else applyUpTo σ n out

/-- Follows chains of bindings to their end. Without a cycle no chain is longer than the list of
bindings, and once more nothing changes. -/
def applyDeep (σ : Subst) (r : Ref) : StoreM Ref := applyUpTo σ (σ.bindings.length + 1) r

/-- Follows the chains inside the bindings, slot by slot, and drops variables bound to themselves. -/
def resolve (σ : Subst) : StoreM Subst := do
  let ends ← σ.walk.mapM fun (v, r) => return (v, ← applyDeep σ r)
  let s ← get
  return .ofList (ends.filter fun (v, r) => s.node? r ≠ some (.var v))

end Store
end OrderedCompletion
