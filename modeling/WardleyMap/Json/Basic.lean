import WardleyMap.Decimal.Scaling

/-!
# JSON values

A value keeps what its reader may still have to refuse: numbers keep their written form, because a whole
number and a number with a fraction are told apart by it, and a string that holds half of a surrogate
pair is kept as a string without text.
-/

namespace WardleyMap

namespace Json

/-- A number as it is written: digits, digits after the point if there is one, and the exponent if
there is one. -/
structure NumberLiteral where
  negative : Bool
  whole : Text
  fraction : Option Text
  exponent : Option Int
deriving DecidableEq, Repr

namespace NumberLiteral

def toFloat (literal : NumberLiteral) : Float :=
  Decimal.scaledValue literal.negative literal.whole (literal.fraction.getD [])
    (literal.exponent.getD 0)

def toFloat? (literal : NumberLiteral) : Option Float :=
  if literal.toFloat.isFinite then some literal.toFloat else none

/-- The number, if it is written without sign, point and exponent and fits a word. The host takes it as a word of
its machine, and here a word has 64 bits; on a machine with shorter words, fewer numbers fit. -/
def toNat? (literal : NumberLiteral) : Option Nat :=
  let n := Nat.ofDigitChars 10 literal.whole 0
  if literal.negative ∨ literal.fraction.isSome ∨ literal.exponent.isSome ∨ Nat.pow 2 64 ≤ n then none
  else some n

end NumberLiteral

end Json

/-- A JSON value. The members of an object are in the order in which they are written. -/
inductive Json where
  | null
  | bool (b : Bool)
  | number (literal : Json.NumberLiteral)
  | string (text : Option Text)
  | array (items : List Json)
  | object (members : List (Option Text × Json))

namespace Json

mutual

/-- Every number is in range, and every string and key is text. -/
def isSound : Json → Bool
  | null | bool _ => true
  | number literal => literal.toFloat?.isSome
  | string text => text.isSome
  | array items => itemsSound items
  | object members => membersSound members

def itemsSound : List Json → Bool
  | [] => true
  | item :: items => item.isSound && itemsSound items

def membersSound : List (Option Text × Json) → Bool
  | [] => true
  | (key, value) :: members => key.isSome && value.isSound && membersSound members

end

mutual

def depth : Json → Nat
  | null | bool _ | number _ | string _ => 0
  | array items => itemsDepth items + 1
  | object members => membersDepth members + 1

def itemsDepth : List Json → Nat
  | [] => 0
  | item :: items => max item.depth (itemsDepth items)

def membersDepth : List (Option Text × Json) → Nat
  | [] => 0
  | (_, value) :: members => max value.depth (membersDepth members)

end

def float? : Json → Option Float
  | number literal => literal.toFloat?
  | _ => none

def nat? : Json → Option Nat
  | number literal => literal.toNat?
  | _ => none

def optionalNat? : Json → Option (Option Nat)
  | null => some none
  | value => value.nat?.map some

def bool? : Json → Option Bool
  | bool b => some b
  | _ => none

def text? : Json → Option Text
  | string text => text
  | _ => none

end Json

end WardleyMap
