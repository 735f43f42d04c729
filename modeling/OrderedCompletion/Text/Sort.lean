/-! Sorting by length and then by content. -/

namespace OrderedCompletion.Text

/-- Shorter texts in bytes come first, and equally long ones in lexicographic order. -/
def shorterFirst (a b : String) : Bool :=
  a.utf8ByteSize < b.utf8ByteSize || (a.utf8ByteSize = b.utf8ByteSize && !(b < a))

/-- Puts an element before the first one that is not smaller. -/
def insertBy {α : Type} (le : α → α → Bool) (a : α) : List α → List α
  | [] => [a]
  | b :: bs => if le a b then a :: b :: bs else b :: insertBy le a bs

/-- A sort that keeps elements of the same rank in their order. -/
def sortBy {α : Type} (le : α → α → Bool) (as : List α) : List α := as.foldr (insertBy le) []

/-- Sorts elements by a text that is made once for each of them. -/
def sortByText {α : Type} (text : α → String) (as : List α) : List α :=
  (sortBy (fun a b => shorterFirst a.1 b.1) (as.map fun a => (text a, a))).map (·.2)

end OrderedCompletion.Text
