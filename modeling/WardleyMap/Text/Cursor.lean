import WardleyMap.Text.Blank

/-!
# Spans and cursors

A line is read from left to right by a cursor, which knows its column and the text from there on. What
has been read is reported as a span, a pair of columns in the line. Columns count characters, so no
span can start or end inside a character.
-/

namespace WardleyMap

/-- The columns from `start` up to, but not including, `stop`. -/
structure Span where
  start : Nat
  stop : Nat
deriving DecidableEq, Repr, Inhabited

namespace Span

def slice (span : Span) (line : Text) : Text :=
  (line.take span.stop).drop span.start

/-- The span of `text` without its outer blanks, where `text` starts at column `col`. A blank text
leaves the empty span at its start. -/
def ofTrimmed (col : Nat) (text : Text) : Span :=
  match text.trim with
  | [] => ⟨col, col⟩
  | trimmed => ⟨col + text.indent, col + text.indent + trimmed.length⟩

end Span

/-- A place in a line: the column, and the text from there on. -/
structure Cursor where
  col : Nat
  rest : Text
deriving DecidableEq, Repr, Inhabited

namespace Cursor

def ofLine (line : Text) : Cursor :=
  ⟨0, line⟩

def advance (c : Cursor) (n : Nat) : Cursor :=
  ⟨c.col + n, c.rest.drop n⟩

/-- The place at column `col`, which must not lie behind the cursor. -/
def seek (c : Cursor) (col : Nat) : Cursor :=
  c.advance (col - c.col)

def clip (c : Cursor) (stop : Nat) : Cursor :=
  ⟨c.col, c.rest.take (stop - c.col)⟩

def lineEnd (c : Cursor) : Nat :=
  c.col + c.rest.length

def skipSpaces (c : Cursor) : Cursor :=
  c.advance (c.rest.takeWhile isSpace).length

def accept? (c : Cursor) (ch : Char) : Option Cursor :=
  if c.rest.head? = some ch then some (c.advance 1) else none

def acceptText? (c : Cursor) (word : Text) : Option Cursor :=
  if word.isPrefixOf c.rest then some (c.advance word.length) else none

/-- A keyword has to be followed by a blank, an opening bracket or the end of the line. -/
def atBoundary (c : Cursor) : Bool :=
  match c.rest.head? with
  | none => true
  | some ch => isBlank ch || ch == '['

def keyword? (c : Cursor) (word : Text) : Option Cursor := do
  let c ← c.acceptText? word
  guard c.atBoundary
  return c

end Cursor

end WardleyMap
