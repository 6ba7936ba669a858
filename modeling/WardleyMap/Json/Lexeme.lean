import WardleyMap.Json.Basic

/-!
# Numbers and strings of JSON

The two lexemes of JSON that have an inner grammar. A number has no superfluous zero at its start and no
bare point. A string holds no control character, and an escaped code unit of a surrogate pair stands for
a character together with its other half only.
-/

namespace WardleyMap.Json

def readExponent? (s : Text) : Option (Option Int × Text) :=
  if s.head? = some 'e' ∨ s.head? = some 'E' then
    let signed := s.drop 1
    let negative := signed.head? == some '-'
    let unsigned := if negative ∨ signed.head? = some '+' then signed.drop 1 else signed
    match unsigned.takeWhile Char.isDigit with
    | [] => none
    | digits =>
      let n : Int := Nat.ofDigitChars 10 digits 0
      some (some (if negative then -n else n), unsigned.drop digits.length)
  else some (none, s)

def readFraction? : Text → Option (Option Text × Text)
  | '.' :: s =>
    match s.takeWhile Char.isDigit with
    | [] => none
    | digits => some (some digits, s.drop digits.length)
  | s => some (none, s)

def readNumber? (s : Text) : Option (NumberLiteral × Text) := do
  let negative := s.head? == some '-'
  let s := if negative then s.drop 1 else s
  let whole := s.takeWhile Char.isDigit
  guard (whole.length = 1 ∨ (whole.head?.any (· != '0')))
  let (fraction, s) ← readFraction? (s.drop whole.length)
  let (exponent, s) ← readExponent? s
  return (⟨negative, whole, fraction, exponent⟩, s)

/-- A piece of a string: a character, or the code unit of a numeric escape. -/
inductive Piece where
  | char (c : Char)
  | codeUnit (n : Nat)
deriving DecidableEq, Repr

def hexDigit? (c : Char) : Option Nat :=
  if c.isDigit then some (c.toNat - '0'.toNat)
  else if 'a' ≤ c ∧ c ≤ 'f' then some (c.toNat - 'a'.toNat + 10)
  else if 'A' ≤ c ∧ c ≤ 'F' then some (c.toNat - 'A'.toNat + 10)
  else none

def escaped? (c : Char) : Option Char :=
  match c with
  | '"' => some '"'
  | '\\' => some '\\'
  | '/' => some '/'
  | 'b' => some '\x08'
  | 'f' => some '\x0c'
  | 'n' => some '\n'
  | 'r' => some '\r'
  | 't' => some '\t'
  | _ => none

/-- Reads a string after its opening quote, up to and with its closing one. -/
def readPieces? : Text → Option (List Piece × Text)
  | [] => none
  | '"' :: s => some ([], s)
  | '\\' :: 'u' :: a :: b :: c :: d :: s => do
    let n := (((← hexDigit? a) * 16 + (← hexDigit? b)) * 16 + (← hexDigit? c)) * 16 + (← hexDigit? d)
    let (pieces, s) ← readPieces? s
    return (.codeUnit n :: pieces, s)
  | '\\' :: c :: s => do
    let c ← escaped? c
    let (pieces, s) ← readPieces? s
    return (.char c :: pieces, s)
  | c :: s => do
    guard (0x20 ≤ c.toNat)
    let (pieces, s) ← readPieces? s
    return (.char c :: pieces, s)

/-- A code unit that opens a surrogate pair. -/
def opensPair (n : Nat) : Bool :=
  0xd800 ≤ n && n ≤ 0xdbff

def closesPair (n : Nat) : Bool :=
  0xdc00 ≤ n && n ≤ 0xdfff

/-- The text that the pieces make up, unless a code unit lacks its other half. -/
def join? : List Piece → Option Text
  | [] => some []
  | .char c :: pieces => (join? pieces).map (c :: ·)
  | .codeUnit n :: pieces =>
    if opensPair n then
      match pieces with
      | .codeUnit m :: pieces =>
        if closesPair m then
          (join? pieces).map (Char.ofNat (0x10000 + (n - 0xd800) * 0x400 + (m - 0xdc00)) :: ·)
        else none
      | _ => none
    else if closesPair n then none
    else (join? pieces).map (Char.ofNat n :: ·)

def readString? (s : Text) : Option (Option Text × Text) :=
  (readPieces? s).map fun (pieces, s) => (join? pieces, s)

end WardleyMap.Json
