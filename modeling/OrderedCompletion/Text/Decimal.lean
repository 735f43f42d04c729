/-! Numbers in decimal notation with a fixed number of places. -/

namespace OrderedCompletion.Text

/-- The integer nearest to `num / den`; a half goes to the even neighbour. -/
def roundDiv (num den : Nat) : Nat :=
  let q := num / den
  let r := num % den
  if den < 2 * r || (2 * r = den && q % 2 = 1) then q + 1 else q

/-- A number of the form `m / 2 ^ down * 2 ^ up`. -/
structure Dyadic where
  m : Nat
  up : Nat
  down : Nat
  deriving DecidableEq, Repr

/-- The exact value of the bits of a finite double that is not negative. -/
def Dyadic.ofBits (bits : UInt64) : Dyadic :=
  let exponent := (bits >>> 52).toNat % 2048
  let fraction := bits.toNat % 0x10000000000000
  if exponent = 0 then ⟨fraction, 0, 1074⟩
  else ⟨fraction + 0x10000000000000, exponent - 1075, 1075 - exponent⟩

/-- Digits with zeros in front, at least `width` of them. -/
def padded (width n : Nat) : String :=
  let digits := n.repr
  String.ofList (List.replicate (width - digits.length) '0') ++ digits

/-- The exact value rounded to `places` places, a half to the even neighbour. -/
def Dyadic.fixed (places : Nat) (x : Dyadic) : String :=
  let unit := Nat.pow 10 places
  let n := roundDiv (x.m * Nat.pow 2 x.up * unit) (Nat.pow 2 x.down)
  (n / unit).repr ++ "." ++ padded places (n % unit)

end OrderedCompletion.Text
