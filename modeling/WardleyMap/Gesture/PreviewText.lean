import WardleyMap.Decimal.Shortest
import WardleyMap.Gesture.Tool

/-!
# Previews as JSON

The host draws a preview from a JSON text without blanks, whose keys are in alphabetical order. Numbers are
not rounded: each is written with the fewest digits that read back, positionally where its exponent is from
-5 to 15 and with an exponent elsewhere. A number that JSON cannot express is written as `null`.
-/

namespace WardleyMap

namespace Preview

/-- A shortest decimal in positional notation, with at least one digit on each side of the point. -/
def positional (s : Decimal.Scientific) : Text :=
  let before := (s.exponent + 1).toNat
  let zeros := List.replicate (-(s.exponent + 1)).toNat '0'
  let whole := s.digits.take before ++ List.replicate (before - s.digits.length) '0'
  let fraction := zeros ++ s.digits.drop before
  (if whole.isEmpty then ['0'] else whole) ++ '.' :: (if fraction.isEmpty then ['0'] else fraction)

/-- A shortest decimal with an exponent, which always has a sign. -/
def exponential (s : Decimal.Scientific) : Text :=
  let mantissa :=
    match s.digits with
    | first :: second :: rest => first :: '.' :: second :: rest
    | digits => digits
  let sign := if s.exponent < 0 then '-' else '+'
  mantissa ++ 'e' :: sign :: Nat.toDigits 10 s.exponent.natAbs

def numberText (x : Float) : Text :=
  match Decimal.Double.ofFloat x with
  | .notANumber | .infinite _ => ['n', 'u', 'l', 'l']
  | .finite negative units =>
    let magnitude :=
      if units = 0 then ['0', '.', '0']
      else
        let s := Decimal.shortest (x.toBits.toNat % Nat.pow 2 63) units
        if -5 ≤ s.exponent ∧ s.exponent ≤ 15 then positional s else exponential s
    if negative then '-' :: magnitude else magnitude

def objectText (members : List (String × Float)) : Text :=
  let texts := members.map fun (key, x) => '"' :: (key.toList ++ ['"', ':'] ++ numberText x)
  '{' :: (List.intercalate [','] texts ++ ['}'])

def text : Preview → Text
  | position p => objectText [("maturity", p.maturity), ("visibility", p.visibility)]
  | offset v => objectText [("dx", v.dx), ("dy", v.dy)]
  | bounds r => objectText [("height", r.height), ("width", r.width), ("x", r.x0), ("y", r.y0)]

end Preview

end WardleyMap
