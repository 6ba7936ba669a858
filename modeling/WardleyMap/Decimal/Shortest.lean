import WardleyMap.Decimal.Double
import WardleyMap.Text.Blank

/-!
# The fewest digits that read back

The shortest decimal of a double has the fewest digits among those whose nearest double it is, and among
these it is nearest to the double. If any decimal with a given number of digits reads back, so does one
of the two between which the double lies, and only those two are tried.
-/

namespace WardleyMap.Decimal

/-- A positive number `d.ddd * 10 ^ exponent`, given by its digits, the first and the last of which are
not zero. -/
structure Scientific where
  digits : Text
  exponent : Int
deriving DecidableEq, Repr, Inhabited

def shifted (num den : Nat) (places : Int) : Nat × Nat :=
  (num * Nat.pow 10 places.toNat, den * Nat.pow 10 (-places).toNat)

/-- The exponent of the greatest power of ten that is not above so many units, which are not zero. No
double is as small as `10 ^ -400`. -/
def decimalExponent (units : Nat) : Int :=
  (Nat.toDigits 10 (units * Nat.pow 10 400 / Nat.pow 2 unitPlaces)).length - 401

/-- The whole number `n` over `10 ^ places` reads back as the double with the given bits. -/
def readsBack (bits n : Nat) (places : Int) : Bool :=
  let (num, den) := shifted n 1 (-places)
  nearestBits num den == bits

/-- The decimal with `count` digits that reads back, if there is one, as a whole number over
`10 ^ places`. -/
def candidate? (bits units : Nat) (count : Nat) : Option (Nat × Int) :=
  let places : Int := count - 1 - decimalExponent units
  let (num, den) := shifted units (Nat.pow 2 unitPlaces) places
  let below := num / den
  let near := roundHalfEven num den
  let far := if near = below then below + 1 else below
  if readsBack bits near places then some (near, places)
  else if readsBack bits far places then some (far, places)
  else none

/-- The shortest decimal of a double with the given bits and so many units. Seventeen digits always read
back. -/
def shortest (bits units : Nat) : Scientific :=
  match (List.range 17).findSome? fun i => candidate? bits units (i + 1) with
  | some (n, places) =>
    let digits := Nat.toDigits 10 n
    ⟨(digits.reverse.dropWhile (· == '0')).reverse, digits.length - 1 - places⟩
  | none => ⟨['0'], 0⟩

end WardleyMap.Decimal
