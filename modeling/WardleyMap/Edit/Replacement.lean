import WardleyMap.Text.Cursor

/-!
# Replacing spans of a line

An edit is a list of spans, each with the text that takes its place. The spans refer to the line as it
was, so they are replaced from right to left: a replacement moves only what lies to its right.
-/

namespace WardleyMap

structure Replacement where
  span : Span
  text : Text
deriving DecidableEq, Repr

namespace Replacement

def insertion (col : Nat) (text : Text) : Replacement :=
  ⟨⟨col, col⟩, text⟩

def apply (r : Replacement) (line : Text) : Text :=
  line.take r.span.start ++ r.text ++ line.drop r.span.stop

/-- Adds a replacement to a list in which they stand from right to left. -/
def place (r : Replacement) : List Replacement → List Replacement
  | [] => [r]
  | s :: rest => if s.span.start ≤ r.span.start then r :: s :: rest else s :: place r rest

/-- The replacements from right to left. Those that start at one column keep their order. -/
def rightToLeft : List Replacement → List Replacement
  | [] => []
  | r :: rest => place r (rightToLeft rest)

def applyAll (rs : List Replacement) (line : Text) : Text :=
  (rightToLeft rs).foldl (fun line r => r.apply line) line

end Replacement

end WardleyMap
