import WardleyMap.Decimal.Literal
import WardleyMap.Name
import WardleyMap.Statement.Basic

/-!
# Clauses of a line

What several kinds of statements share: numbers, brackets of numbers, quoted names, and the tokens
among which labels and maturities are looked for. Each reader returns what it read and the cursor after
it, or nothing if the clause does not stand where the cursor is.
-/

namespace WardleyMap

namespace Cursor

def number? (c : Cursor) : Option (Number × Cursor) :=
  (Decimal.literalLength? c.rest).map fun n =>
    (⟨⟨c.col, c.col + n⟩, Decimal.value (c.rest.take n)⟩, c.advance n)

def field? (c : Cursor) : Option (Number × Cursor) :=
  (c.skipSpaces.number?).map fun (number, c) => (number, c.skipSpaces)

/-- Reads `n + 1` numbers with a comma between neighbours. -/
def fields? (c : Cursor) : (n : Nat) → Option (List Number × Cursor)
  | 0 => c.field?.map fun (number, c) => ([number], c)
  | n + 1 => do
    let (number, c) ← c.field?
    let c ← c.accept? ','
    let (numbers, c) ← c.fields? n
    return (number :: numbers, c)

/-- Reads a bracket of exactly `arity` numbers, of which there is at least one. -/
def bracket? (c : Cursor) (arity : Nat) : Option (Bracket × Cursor) := do
  let inner ← c.accept? '['
  let (values, last) ← inner.fields? (arity - 1)
  let after ← last.accept? ']'
  return (⟨⟨c.col, after.col⟩, values⟩, after)

def quotedName? (c : Cursor) : Option NameToken :=
  (Name.quotedLength? c.rest).map fun n =>
    ⟨⟨c.col, c.col + n⟩, Name.decode (c.rest.take n)⟩

def bareName (c : Cursor) (stop : Nat) : NameToken :=
  let text : Text := c.rest.take (stop - c.col)
  ⟨.ofTrimmed c.col text, text.trim⟩

def labelClause? (c : Cursor) : Option LabelClause := do
  let after ← c.keyword? ['l', 'a', 'b', 'e', 'l']
  match ← after.skipSpaces.bracket? 2 with
  | (⟨span, [dx, dy]⟩, _) => return ⟨⟨c.col, span.stop⟩, dx, dy⟩
  | _ => none

end Cursor

structure Token where
  start : Cursor
  length : Nat
deriving Repr, Inhabited

namespace Token

def span (t : Token) : Span :=
  ⟨t.start.col, t.start.col + t.length⟩

def text (t : Token) : Text :=
  t.start.rest.take t.length

/-- The length of the token at the start of a text that does not start with a blank. A token that opens
with a quote runs to its closing quote, or else to the end; any other runs to the next blank. -/
def lengthAt (s : Text) : Nat :=
  if s.head? = some '"' then (Name.quotedLength? s).getD s.length
  else (s.takeWhile (!isBlank ·)).length

/-- The tokens of the text `s`, which starts at column `col` and of which the first `skip` characters
belong to a token that has been read. -/
def scan (skip col : Nat) : (s : Text) → List Token
  | [] => []
  | c :: s =>
    match skip with
    | skip + 1 => scan skip (col + 1) s
    | 0 =>
      if isBlank c then scan 0 (col + 1) s
      else
        let length := lengthAt (c :: s)
        ⟨⟨col, c :: s⟩, length⟩ :: scan (length - 1) (col + 1) s

end Token

namespace Cursor

def tokens (c : Cursor) : List Token :=
  Token.scan 0 c.col c.rest

/-- The first label that stands at the start of a token. -/
def label? (c : Cursor) : Option LabelClause :=
  c.tokens.findSome? (·.start.labelClause?)

def lastNumber? (c : Cursor) : Option Number :=
  (c.tokens.filter (Decimal.isLiteral ·.text)).getLast?.map fun t =>
    ⟨t.span, Decimal.value t.text⟩

end Cursor

end WardleyMap
