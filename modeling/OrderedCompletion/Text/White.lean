/-! White space: the characters with the Unicode property `White_Space`, and trimming. -/

namespace OrderedCompletion.Text

/-- The closed ranges of code points that are white space. -/
def whiteRanges : List (Nat × Nat) :=
  [(0x9, 0xD), (0x20, 0x20), (0x85, 0x85), (0xA0, 0xA0), (0x1680, 0x1680), (0x2000, 0x200A),
    (0x2028, 0x2029), (0x202F, 0x202F), (0x205F, 0x205F), (0x3000, 0x3000)]

def isWhite (c : Char) : Bool := whiteRanges.any fun (lo, hi) => lo ≤ c.toNat && c.toNat ≤ hi

def trimStart (cs : List Char) : List Char := cs.dropWhile isWhite

def trimEnd (cs : List Char) : List Char := (cs.reverse.dropWhile isWhite).reverse

def trim (cs : List Char) : List Char := trimEnd (trimStart cs)

/-- The text before the first white character and the text after it. -/
def splitAtWhite (cs : List Char) : List Char × List Char :=
  (cs.takeWhile (!isWhite ·), (cs.dropWhile (!isWhite ·)).drop 1)

end OrderedCompletion.Text
