import WardleyMap.Json.Lexeme

/-!
# Reading JSON

The grammar of JSON values, without any of its common relaxations. Each step of the reader goes one
level or one item further into the text, so twice the length of the text bounds the number of nested
steps.
-/

namespace WardleyMap.Json

def skipBlanks (s : Text) : Text :=
  s.dropWhile fun c => c == ' ' || c == '\t' || c == '\n' || c == '\r'

/-- Passes the text `word`, if it stands here, and gives `value` for it. -/
def readLiteral? (word : Text) (value : Json) (s : Text) : Option (Json × Text) :=
  if word.isPrefixOf s then some (value, s.drop word.length) else none

mutual

def readValue? : (bound : Nat) → Text → Option (Json × Text)
  | 0, _ => none
  | bound + 1, s =>
    match skipBlanks s with
    | '{' :: s =>
      match skipBlanks s with
      | '}' :: s => some (object [], s)
      | s => (readMembers? bound s).map fun (members, s) => (object members, s)
    | '[' :: s =>
      match skipBlanks s with
      | ']' :: s => some (array [], s)
      | s => (readItems? bound s).map fun (items, s) => (array items, s)
    | '"' :: s => (readString? s).map fun (text, s) => (string text, s)
    | 'n' :: s => readLiteral? ['u', 'l', 'l'] null s
    | 't' :: s => readLiteral? ['r', 'u', 'e'] (bool true) s
    | 'f' :: s => readLiteral? ['a', 'l', 's', 'e'] (bool false) s
    | s => (readNumber? s).map fun (literal, s) => (number literal, s)

def readItems? : (bound : Nat) → Text → Option (List Json × Text)
  | 0, _ => none
  | bound + 1, s => do
    let (item, s) ← readValue? bound s
    match skipBlanks s with
    | ',' :: s =>
      let (items, s) ← readItems? bound s
      return (item :: items, s)
    | ']' :: s => return ([item], s)
    | _ => none

def readMembers? : (bound : Nat) → Text → Option (List (Option Text × Json) × Text)
  | 0, _ => none
  | bound + 1, s =>
    match skipBlanks s with
    | '"' :: s => do
      let (key, s) ← readString? s
      match skipBlanks s with
      | ':' :: s =>
        let (value, s) ← readValue? bound s
        match skipBlanks s with
        | ',' :: s =>
          let (members, s) ← readMembers? bound s
          return ((key, value) :: members, s)
        | '}' :: s => return ([(key, value)], s)
        | _ => none
      | _ => none
    | _ => none

end

def ofText? (s : Text) : Option Json :=
  match readValue? (2 * s.length + 2) s with
  | some (value, rest) => if (skipBlanks rest).isEmpty then some value else none
  | none => none

end WardleyMap.Json
