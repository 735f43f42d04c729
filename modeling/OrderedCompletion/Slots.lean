import OrderedCompletion.Term.Basic

/-! The order in which variables are walked that were put one by one into a table of slots. The table
has a power of two of slots, and a variable goes to the first free slot from its home on. -/

namespace OrderedCompletion

/-- A table of slots. -/
abbrev Slots := List (Option Var)

namespace Slots

/-- How many slots of `n` may be in use: all but one in a small table, and seven of eight in others. -/
def capacity (n : Nat) : Nat := if n ≤ 8 then n - 1 else n / 8 * 7

/-- The slot of `n` where the search for a free one starts. -/
def home (n : Nat) (v : Var) : Nat := v * 0x517CC1B727220A95 % n

/-- The `k`-th slot of a search: runs of sixteen neighbours, each run farther from the last one. -/
def probe (n start k : Nat) : Nat :=
  let run := k / 16
  (start + 8 * (run * (run + 1)) + k % 16) % n

/-- Searches from the `k`-th slot on, and fills the first free one. -/
def fill (slots : Slots) (v : Var) : (left k : Nat) → Slots
  | 0, _ => slots
  | left + 1, k =>
    let i := probe slots.length (home slots.length v) k
    match slots[i]? with
    | some none => slots.set i (some v)
    | _ => fill slots v left (k + 1)

def put (slots : Slots) (v : Var) : Slots := slots.fill v (16 * slots.length) 0

def inUse (slots : Slots) : List Var := slots.filterMap id

/-- A table with twice as many slots, filled slot by slot. -/
def doubled (slots : Slots) : Slots :=
  slots.inUse.foldl put (List.replicate (max 4 (2 * slots.length)) none)

/-- Adds a variable. A table that is in use as far as it may be is doubled before, also if it has the
variable already. -/
def add (slots : Slots) (v : Var) : Slots :=
  let roomy := if slots.inUse.length < capacity slots.length then slots else slots.doubled
  if v ∈ roomy.inUse then roomy else roomy.put v

/-- Variables that were added in the order of the list, by slot. -/
def walk (vs : List Var) : List Var := inUse (vs.foldl add [])

end Slots
end OrderedCompletion
