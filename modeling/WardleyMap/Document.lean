import WardleyMap.Text.Blank

/-!
# Map text as lines

A document is the list of lines between the line feeds of a map text. A carriage return before a line
feed is stored with its line but is not part of the line's content, so replacing the content of a line
keeps the way it ends. Lines are numbered from one.
-/

namespace WardleyMap

/-- The stored lines of a map text, each with the carriage return that it may end in. -/
structure Document where
  lines : List Text
deriving DecidableEq, Repr

namespace Document

/-- The lines between the line feeds of a text: one more than there are line feeds. -/
def ofText (text : Text) : Document :=
  ⟨text.split (· == '\n')⟩

def toText (doc : Document) : Text :=
  List.intercalate ['\n'] doc.lines

/-- A stored line without the carriage return at its end. -/
def content (stored : Text) : Text :=
  if stored.getLast? = some '\r' then stored.dropLast else stored

def ending (stored : Text) : Text :=
  if stored.getLast? = some '\r' then ['\r'] else []

/-- The line with the number `n`, as stored. There is no line zero. -/
def stored? (doc : Document) : (n : Nat) → Option Text
  | 0 => none
  | i + 1 => doc.lines[i]?

def line? (doc : Document) (n : Nat) : Option Text :=
  (doc.stored? n).map content

def numberFrom (start : Nat) : List Text → List (Nat × Text)
  | [] => []
  | stored :: rest => (start, content stored) :: numberFrom (start + 1) rest

def numbered (doc : Document) : List (Nat × Text) :=
  numberFrom 1 doc.lines

/-- The document with new content in line `n`, which ends as it did before; nothing if there is no
such line. -/
def withLine? (doc : Document) (n : Nat) (newContent : Text) : Option Document :=
  (doc.stored? n).map fun stored => ⟨doc.lines.set (n - 1) (newContent ++ ending stored)⟩

/-- The numbers of the lines that differ between two lists of lines, the first of which has the number
`start`. A line without a counterpart differs. -/
def changedFrom (start : Nat) : List Text → List Text → List Nat
  | [], [] => []
  | [], _ :: b => start :: changedFrom (start + 1) [] b
  | _ :: a, [] => start :: changedFrom (start + 1) a []
  | x :: a, y :: b =>
    if x = y then changedFrom (start + 1) a b else start :: changedFrom (start + 1) a b

def changedLines (a b : Document) : List Nat :=
  changedFrom 1 a.lines b.lines

end Document

end WardleyMap
