import Std.Data.TreeMap.Lemmas

/-! Finite maps whose entries are filed by a digest of the key. -/

namespace OrderedCompletion

/-- Keys with a number that equal keys share. -/
class Digest (α : Type) where
  digest : α → UInt64

export Digest (digest)

/-- A finite map from `α` to `β`. Of two entries for a key the newer one counts. -/
structure Index (α β : Type) where
  /-- Entries by digest, newer ones first. -/
  files : Std.TreeMap Nat (List (α × β)) := {}
  /-- Number of different keys. -/
  size : Nat := 0

namespace Index

variable {α β : Type} [Digest α] [DecidableEq α]

def empty : Index α β := {}

instance : Inhabited (Index α β) := ⟨empty⟩

def find? (ix : Index α β) (a : α) : Option β :=
  (ix.files.getD (digest a).toNat []).lookup a

def contains (ix : Index α β) (a : α) : Bool := (ix.find? a).isSome

def insert (ix : Index α β) (a : α) (b : β) : Index α β where
  files := ix.files.insert (digest a).toNat ((a, b) :: ix.files.getD (digest a).toNat [])
  size := if ix.contains a then ix.size else ix.size + 1

@[simp]
theorem find?_empty (a : α) : (empty : Index α β).find? a = none := by
  simp [find?, empty]

theorem find?_insert (ix : Index α β) (a c : α) (b : β) :
    (ix.insert a b).find? c = if c = a then some b else ix.find? c := by
  simp only [find?, insert, Std.TreeMap.getD_insert]
  by_cases h : c = a
  · subst h
    simp
  · simp only [if_neg h]
    split
    · rename_i same
      rw [Std.LawfulEqCmp.compare_eq_iff_eq] at same
      rw [List.lookup_cons, beq_false_of_ne h, same]
    · rfl

end Index
end OrderedCompletion
