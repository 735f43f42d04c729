import OrderedCompletion.Index
import OrderedCompletion.Term.Error

/-! A store that keeps every term once and hands out references, counted from zero. -/

namespace OrderedCompletion

/-- A reference to a term of a store. One that leads to no term yet may lead to one later. -/
abbrev Ref := Nat

/-- The top of a stored term. -/
inductive Node where
  | var (v : Var)
  | app (f : Head) (args : List Ref)
  deriving DecidableEq, Repr

def Head.digest : Head → UInt64
  | .symbol f => 4 * UInt64.ofNat f.index + 1
  | .frozen v => 4 * UInt64.ofNat v + 3

instance : Digest Node where
  digest
    | .var v => 4 * UInt64.ofNat v + 2
    | .app f args =>
      args.foldl (fun h r => 1000003 * h + UInt64.ofNat r + 7) (1000003 * f.digest + 5)

/-- A node with the node count of its term, which wraps around. -/
structure Entry where
  node : Node
  size : UInt32
  deriving DecidableEq, Repr

/-- Entries by reference. What was found out about a reference is noted, also about one that led nowhere
when it was asked about. -/
structure Store where
  entries : Array Entry := #[]
  /-- The reference of every node in the store. -/
  refs : Index Node Ref := .empty
  varsOf : Std.TreeMap Ref (List Var) := {}
  frozenOf : Std.TreeMap Ref Ref := {}
  thawedOf : Std.TreeMap Ref Ref := {}
  deriving Inhabited

/-- Actions on a store. -/
abbrev StoreM := StateM Store

namespace Store

def empty : Store := {}

/-- The number of terms. -/
def size (s : Store) : Nat := s.entries.size

def node? (s : Store) (r : Ref) : Option Node := s.entries[r]?.map (·.node)

/-- The stored node count, zero if the reference leads nowhere. -/
def sizeOf (s : Store) (r : Ref) : UInt32 := (s.entries[r]?.map (·.size)).getD 0

/-- The node count of a new node. An argument that leads nowhere counts one. -/
def nodeSize (s : Store) : Node → UInt32
  | .var _ => 1
  | .app _ args => args.foldl (fun n r => n + (s.entries[r]?.map (·.size)).getD 1) 1

/-- The reference of a node, which enters the store if it is new. -/
def intern (node : Node) : StoreM Ref := fun s =>
  match s.refs.find? node with
  | some r => (r, s)
  | none =>
    let r := s.size
    let entry : Entry := ⟨node, s.nodeSize node⟩
    (r, { s with entries := s.entries.push entry, refs := s.refs.insert node r })

def var (v : Var) : StoreM Ref := intern (.var v)

def app (f : Head) (args : List Ref) : StoreM Ref := intern (.app f args)

/-- The rigid constant of a variable. -/
def rigid (v : Var) : StoreM Ref := app (.frozen v) []

/-- More than any term of the store is deep. -/
def bound (s : Store) : Nat := s.size + 1

/-- More than any term is deep that may get new parts while it is walked. -/
def growingBound (s : Store) : Nat := s.size + 0x1000000000000000

/-- The values of `f` on a list. Elements that are equal share one, so that terms stay as small in memory
as their references are. -/
def mapShared {α β : Type} [DecidableEq α] (f : α → β) (as : List α) : List β := go [] as
where
  go (known : List (α × β)) : List α → List β
    | [] => []
    | a :: as =>
      match known.lookup a with
      | some b => b :: go known as
      | none =>
        let b := f a
        b :: go ((a, b) :: known) as

/-- The term behind a reference down to some depth. -/
def termWithin (s : Store) : Nat → Ref → Term
  | 0, r => .missing r
  | n + 1, r =>
    match s.node? r with
    | some (.var v) => .var v
    | some (.app f args) => .app f (mapShared (s.termWithin n) args)
    | none => .missing r

/-- The term behind a reference. -/
def term (s : Store) (r : Ref) : Term := s.termWithin s.bound r

mutual
/-- The reference of a term; arguments enter the store before the terms that have them. -/
def ofTerm : Term → StoreM Ref
  | .var v => var v
  | .app f args => do
    let args ← ofTerms args
    app f args
  | .missing r => return r

def ofTerms : List Term → StoreM (List Ref)
  | [] => return []
  | t :: ts => do
    let r ← ofTerm t
    let rs ← ofTerms ts
    return r :: rs
end

end Store
end OrderedCompletion
