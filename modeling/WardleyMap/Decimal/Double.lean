import WardleyMap.Decimal.Rounding

/-!
# Doubles as exact numbers

Every finite double is a whole number of units of `2 ^ -1074`, the least positive double. Reading a
double in units, and finding the double nearest to a quotient, is all that decimal text needs to know
of the binary format. Powers are written with `Nat.pow`, which means the same whatever algebra is in
scope.
-/

namespace WardleyMap.Decimal

open Float.Model

/-- The binary place of the unit: the unit is `2 ^ -unitPlaces`. -/
def unitPlaces : Nat := 1074

/-- What a double stands for: not a number, or a sign with an infinite magnitude or with a whole number
of units. -/
inductive Double where
  | notANumber
  | infinite (negative : Bool)
  | finite (negative : Bool) (units : Nat)
deriving DecidableEq, Repr

namespace Double

/-- The number that a double stands for. Both zeros have no units, and keep their sign. -/
def ofFloat (x : Float) : Double :=
  match x.toModel.unpack with
  | .notANumber => .notANumber
  | .infinity sign => .infinite (sign == .negative)
  | .zero sign => .finite (sign == .negative) 0
  | .finite sign mantissa exponent _ =>
    .finite (sign == .negative) (mantissa * Nat.pow 2 (exponent + unitPlaces).toNat)

end Double

/-- The bits of positive infinity, which are the bits after those of the greatest finite double. -/
def infinityBits : Nat := 0x7ff * Nat.pow 2 52

/-- The bits of the nonnegative double nearest to `num / den`. From `2 ^ 53` units on a double has 53
significant bits, so its last bit stands for `2 ^ shift` units. The bits of the doubles of one `shift`
follow those of the one before, and a magnitude that rounds past the greatest double is infinite. -/
def nearestBits (num den : Nat) : Nat :=
  let units := num * Nat.pow 2 unitPlaces
  let shift := (units / den).log2 - 52
  min (shift * Nat.pow 2 52 + roundHalfEven units (den * Nat.pow 2 shift)) infinityBits

def nearest (negative : Bool) (num den : Nat) : Float :=
  let magnitude := nearestBits num den
  Float.ofBits (UInt64.ofNat (if negative then Nat.pow 2 63 + magnitude else magnitude))

end WardleyMap.Decimal
