/-!
# Rounding a quotient

Both directions between doubles and decimal text round a quotient of natural numbers to a whole
number: to the nearer of its two neighbours, and from the middle to the even one.
-/

namespace WardleyMap.Decimal

/-- The whole number nearest to `num / den`, the even one of two that are equally near. -/
def roundHalfEven (num den : Nat) : Nat :=
  let quotient := num / den
  match compare (2 * (num % den)) den with
  | .lt => quotient
  | .eq => quotient + quotient % 2
  | .gt => quotient + 1

end WardleyMap.Decimal
