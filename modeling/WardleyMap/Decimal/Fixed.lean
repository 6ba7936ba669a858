import WardleyMap.Decimal.Double
import WardleyMap.Text.Blank

/-!
# A fixed number of places

Numbers go into map text with a fixed number of decimal places. The exact value of the double is
rounded once, a tie to the even digit, and a number whose digits are all zero has no sign.

A unit is a whole number over `2 ^ 1074`, hence over `10 ^ 1074`: the expansion of a double ends after
1074 places, and all places that follow are zeros.
-/

namespace WardleyMap.Decimal

/-- The number `n / 10 ^ places` as text, with `places` digits after the point, followed by `zeros`
zeros. Without any place there is no point. -/
def pointText (n places zeros : Nat) : Text :=
  let whole := Nat.toDigits 10 (n / Nat.pow 10 places)
  let fraction :=
    if places = 0 then [] else (Nat.toDigits 10 (n % Nat.pow 10 places)).leftpad places '0'
  if places + zeros = 0 then whole else whole ++ '.' :: (fraction ++ List.replicate zeros '0')

/-- A magnitude of so many units, rounded to a whole number of `10 ^ -places`. -/
def scaled (units places : Nat) : Nat :=
  roundHalfEven (units * Nat.pow 10 places) (Nat.pow 2 unitPlaces)

def fixed (x : Float) (places : Nat) : Text :=
  match Double.ofFloat x with
  | .notANumber => ['N', 'a', 'N']
  | .infinite negative => if negative then ['-', 'i', 'n', 'f'] else ['i', 'n', 'f']
  | .finite negative units =>
    let known := min places unitPlaces
    let n := scaled units known
    let magnitude := pointText n known (places - known)
    if negative ∧ n ≠ 0 then '-' :: magnitude else magnitude

def agreesAt (places : Nat) (a b : Float) : Bool :=
  fixed a places == fixed b places

end WardleyMap.Decimal
