import WardleyMap.Decimal.Double
import WardleyMap.Text.Basic

/-!
# Doubles by scaling

A decimal number can be brought to a double without its exact value: as many of its digits as fit a word
of 64 bits make up a whole number, the double nearest to the whole number is multiplied or divided by a
power of ten, and the digits that are left over count for nothing but the exponent. Every step rounds, so
the result need not be the double nearest to the number; its last bits may differ.
-/

namespace WardleyMap.Decimal

def wordLimit : Nat := Nat.pow 2 64

/-- Appends digits to a word up to the first one for which there is no room, and returns the digits from
there on. -/
def fillWord (word : Nat) : Text → Nat × Text
  | [] => (word, [])
  | c :: s =>
    let longer := 10 * word + (c.toNat - '0'.toNat)
    if longer < wordLimit then fillWord longer s else (word, c :: s)

def maxPower : Nat := 308

def powerOfTen (n : Nat) : Float :=
  nearest false (Nat.pow 10 n) 1

/-- The double `x`, which is zero or the nearest to a word, times `10 ^ exponent`. A power too great for one
step takes two. What exceeds two steps is dropped: the result is infinite or zero without it. -/
def scale (x : Float) (exponent : Int) : Float :=
  let first := powerOfTen (min exponent.natAbs maxPower)
  let second := powerOfTen (min (exponent.natAbs - maxPower) maxPower)
  if exponent < 0 then x / first / second else x * first * second

/-- The double that scaling gives for a number with the digits `whole` before the point and `fraction`
after it, times `10 ^ exponent`. If a digit before the point is left over, the word may still have room
for the digits after it. -/
def scaledValue (negative : Bool) (whole fraction : Text) (exponent : Int) : Float :=
  let (word, wholeRest) := fillWord 0 whole
  let (word, fractionRest) := fillWord word fraction
  let places : Int := fraction.length - fractionRest.length - wholeRest.length
  let magnitude := scale (nearest false word 1) (exponent - places)
  if negative then -magnitude else magnitude

end WardleyMap.Decimal
