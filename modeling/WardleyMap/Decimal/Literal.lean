import WardleyMap.Decimal.Double
import WardleyMap.Text.Blank

/-!
# Decimal literals

A number in map text is an optional sign, digits, and optionally a point with digits after it; at least
one digit has to stand on one side of the point. There is no exponent. Its value is the double nearest
to the number that is written.
-/

namespace WardleyMap.Decimal

def signLength (s : Text) : Nat :=
  if s.head? = some '-' ∨ s.head? = some '+' then 1 else 0

def digitCount (s : Text) : Nat :=
  (s.takeWhile Char.isDigit).length

/-- The length of the longest literal at the start of the text. -/
def literalLength? (s : Text) : Option Nat :=
  let sign := signLength s
  let whole := digitCount (s.drop sign)
  match s.drop (sign + whole) with
  | '.' :: tail =>
    let fraction := digitCount tail
    if whole = 0 ∧ fraction = 0 then none else some (sign + whole + 1 + fraction)
  | _ => if whole = 0 then none else some (sign + whole)

def isLiteral (s : Text) : Bool :=
  literalLength? s == some s.length

def fractionDigits (literal : Text) : Text :=
  (literal.dropWhile (· != '.')).filter Char.isDigit

/-- The value of a literal: its digits as one number, over ten for each digit after the point. -/
def value (literal : Text) : Float :=
  nearest (literal.head? == some '-') (Nat.ofDigitChars 10 (literal.filter Char.isDigit) 0)
    (Nat.pow 10 (fractionDigits literal).length)

end WardleyMap.Decimal
