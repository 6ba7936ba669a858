import WardleyMap.Edit.Basic

/-!
# Mutations

A mutation is an edit as the visual model sees it: it names an element of the drawing, and where the
element's statement is written has still to be found. An element of an evolved component is drawn at the
place it evolves to, and what it shows is written on the component's `evolve` line.
-/

namespace WardleyMap

/-- How an element is drawn: where its own statement places it, or where it evolves to. The model may
know the number of the line that says what it evolves to. -/
inductive Form where
  | placed
  | evolved (line : Option Nat)
deriving DecidableEq, Repr

/-- An element of the drawing. The name of an evolved component is the one that it evolves from. -/
structure Element where
  kind : Kind
  name : Text
  line : Option Nat
  form : Form
deriving DecidableEq, Repr

/-- A change that the visual model asks for. -/
inductive Mutation where
  | rename (element : Element) (newName : Text)
  /-- Moves the element; of an evolved component only the maturity moves. -/
  | move (element : Element) (position : Position)
  | setLabel (element : Element) (offset : Vec)
  /-- Gives a region the bounds drawn on a canvas of the given size. -/
  | resizeRegion (element : Element) (bounds : Rect) (viewport : Viewport)
  | setRange (element : Element) (start stop : Float)
  | setText (line : Option Nat) (text : Text)
deriving Repr

def Mutation.summary : Mutation → String
  | rename element newName =>
    s!"rename {element.kind.name} \"{String.ofList element.name}\" -> \"{String.ofList newName}\""
  | move element _ => s!"move {element.kind.name} \"{String.ofList element.name}\""
  | setLabel element _ => s!"label {element.kind.name} \"{String.ofList element.name}\""
  | resizeRegion element _ _ => s!"resize {element.kind.name}"
  | setRange element _ _ => s!"pipeline range \"{String.ofList element.name}\""
  | setText line _ => s!"annotation text on line {line.getD 0}"

inductive Refusal where
  /-- It is not known where the element is written. -/
  | noLine
  /-- No line says what the component evolves to. -/
  | noEvolution (name : Text)
  /-- The bounds of the region are too small. -/
  | regionTooSmall
  /-- The edit was not made. -/
  | edit (cause : EditError)
deriving DecidableEq, Repr

namespace Refusal

def message : Refusal → String
  | noLine => "element has no source line"
  | noEvolution name => s!"Could not find evolved component \"{String.ofList name}\""
  | regionTooSmall => "region preview is below the minimum size"
  | edit cause => cause.message

def isUserVisible : Refusal → Bool
  | noEvolution _ => true
  | _ => false

end Refusal

end WardleyMap
