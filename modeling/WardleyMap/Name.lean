import WardleyMap.Text.Blank

/-!
# Names

A name is any text, and a line of the map holds it in a written form. A name that cannot be mistaken
for another part of the line is written bare; any other is written between quotes, with its quotes and
line breaks escaped. Backslashes are not escaped, so a name with a backslash before a quote, before
its end or before an `n` need not survive being written.

Two names are taken for the same one when they agree after their escapes and blanks are folded and
their ASCII letters lowered.
-/

namespace WardleyMap.Name

def arrow : Text :=
  ['-', '>']

def forcesQuotes (c : Char) : Bool :=
  c == '\n' || c == '\r' || c == '"' || c == '[' || c == ']'

/-- The name cannot be written bare: it holds a forcing character or the arrow, or starts or ends with
a blank. The empty name is written bare. -/
def needsQuoting (name : Text) : Bool :=
  name.any forcesQuotes || (name.find? arrow).isSome || name.head?.any isBlank ||
    name.getLast?.any isBlank

/-- The text between the quotes of a written name. A carriage return, with the line feed that may
follow it, is written as one line break. -/
def escape : Text → Text
  | [] => []
  | '"' :: s => '\\' :: '"' :: escape s
  | '\n' :: s => '\\' :: 'n' :: escape s
  | '\r' :: '\n' :: s => '\\' :: 'n' :: escape s
  | '\r' :: s => '\\' :: 'n' :: escape s
  | c :: s => c :: escape s

def encode (name : Text) : Text :=
  if needsQuoting name then '"' :: (escape name ++ ['"']) else name

/-- How many characters precede the first quote that no backslash escapes, if there is one. A
backslash escapes any character that follows it. -/
def closingQuote? : Text → Option Nat
  | [] => none
  | '"' :: _ => some 0
  | '\\' :: _ :: s => (closingQuote? s).map (· + 2)
  | _ :: s => (closingQuote? s).map (· + 1)

/-- The length of the quoted name at the start of the text, with both quotes, if it is closed. -/
def quotedLength? : Text → Option Nat
  | '"' :: body => (closingQuote? body).map (· + 2)
  | _ => none

/-- The name that stands between quotes. A backslash before anything but a quote or an `n` stands for
itself. -/
def unescape : Text → Text
  | [] => []
  | '\\' :: 'n' :: s => '\n' :: unescape s
  | '\\' :: '"' :: s => '"' :: unescape s
  | c :: s => c :: unescape s

/-- The name that a written form stands for. A form that opens with a quote and lacks the closing one
stands for all of its body. -/
def decode : Text → Text
  | '"' :: body =>
    match closingQuote? body with
    | some n => unescape (body.take n)
    | none => unescape body
  | name => name

def expandBreaks : Text → Text
  | [] => []
  | '\\' :: 'n' :: s => '\n' :: expandBreaks s
  | c :: s => c :: expandBreaks s

/-- The form by which names are compared: line breaks expanded, blanks folded, ASCII letters
lowered. -/
def normalize (name : Text) : Text :=
  (expandBreaks name).fold.map Char.toLower

def agrees (a b : Text) : Bool :=
  normalize a == normalize b

end WardleyMap.Name
