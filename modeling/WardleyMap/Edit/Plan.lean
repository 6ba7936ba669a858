import WardleyMap.Decimal.Fixed
import WardleyMap.Edit.Replacement
import WardleyMap.Name
import WardleyMap.Statement.Basic

/-!
# What an edit replaces

For each statement, the replacements that give one of its parts a new value. A part that holds its new
value already is left as it is written, numbers being compared as they would be printed; a part that is
missing is written in its usual form where it belongs.
-/

namespace WardleyMap

def bracketText (precision : Nat) (values : List Float) : Text :=
  '[' :: (List.intercalate [',', ' '] (values.map (Decimal.fixed · precision)) ++ [']'])

/-- Writes new values for all of the numbers, unless each of them prints like its new value. -/
def writeNumbers (precision : Nat) (numbers : List Number) (values : List Float) :
    List Replacement :=
  let pairs := numbers.zip values
  if pairs.all fun (number, value) => Decimal.agreesAt precision number.value value then []
  else pairs.map fun (number, value) => ⟨number.span, Decimal.fixed value precision⟩

def writeBracket (precision : Nat) (bracket : Option Bracket) (col : Nat) (values : List Float) :
    List Replacement :=
  match bracket with
  | some bracket => writeNumbers precision bracket.values values
  | none => [.insertion col (' ' :: bracketText precision values)]

def writeLabel (precision : Nat) (label : Option LabelClause) (col : Nat) (dx dy : Float) :
    List Replacement :=
  match label with
  | some label => writeNumbers precision [label.dx, label.dy] [dx, dy]
  | none =>
    [.insertion col ([' ', 'l', 'a', 'b', 'e', 'l', ' '] ++ bracketText precision [dx, dy])]

namespace Placement

/-- Writes a new name. A placement keeps its name if the new one is blank. -/
def rename (p : Placement) (newName : Text) : List Replacement :=
  if newName.isAllBlank ∨ p.name.value = newName then [] else [⟨p.name.span, Name.encode newName⟩]

def setCoordinates (p : Placement) (precision : Nat) (first second : Float) : List Replacement :=
  writeBracket precision p.coordinates p.name.span.stop [first, second]

/-- Writes the offset of the label. A label is read after coordinates only, so without them it cannot
be written. -/
def setLabel? (p : Placement) (precision : Nat) (dx dy : Float) : Option (List Replacement) :=
  if p.coordinates.isSome then some (writeLabel precision p.label p.insertPoint dx dy) else none

end Placement

namespace Evolution

/-- Writes the name that overrides the component's own. A blank name, or the component's own, takes the
override away. -/
def setOverride (e : Evolution) (newName : Text) : List Replacement :=
  let reverts : Bool := newName.isAllBlank || e.name.value == newName
  match e.override with
  | some override =>
    if reverts then [⟨⟨e.name.span.stop, override.name.span.stop⟩, []⟩]
    else if override.name.value = newName then []
    else [⟨override.name.span, Name.encode newName⟩]
  | none =>
    if reverts then [] else [.insertion e.name.span.stop (Name.arrow ++ Name.encode newName)]

def setMaturity (e : Evolution) (precision : Nat) (maturity : Float) : List Replacement :=
  match e.maturity with
  | some number => writeNumbers precision [number] [maturity]
  | none => [.insertion e.insertPoint (' ' :: Decimal.fixed maturity precision)]

def setLabel (e : Evolution) (precision : Nat) (dx dy : Float) : List Replacement :=
  writeLabel precision e.label e.insertPoint dx dy

end Evolution

namespace Region

/-- Writes the visibility of the top, the maturity of the left, the visibility of the bottom and the
maturity of the right edge. -/
def setEdges (r : Region) (precision : Nat) (top left bottom right : Float) : List Replacement :=
  writeBracket precision r.coordinates r.insertPoint [top, left, bottom, right]

end Region

namespace Annotation

/-- Writes the text after the points, folded to one line; a blank text takes the old one away. Without
points there is no place for a text. -/
def setText? (a : Annotation) (line newText : Text) : Option (List Replacement) :=
  a.coordinates.map fun points =>
    let tail : Span := ⟨points.stop, line.length⟩
    match a.text, newText.fold with
    | none, [] => []
    | some _, [] => [⟨tail, []⟩]
    | some span, folded => if span.slice line = folded then [] else [⟨tail, ' ' :: folded⟩]
    | none, folded => [⟨tail, ' ' :: folded⟩]

end Annotation

end WardleyMap
