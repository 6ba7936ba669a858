import WardleyMap.Gesture.Drag
import WardleyMap.Mutation.Basic

/-!
# Gestures

A gesture turns a drag into one mutation of one element. While the drag lasts it shows a preview, and when
the pointer is released the preview of that moment becomes the mutation, unless the pointer is where it was
pressed or there is nothing to show.
-/

namespace WardleyMap

inductive Corner where
  | topLeft
  | topRight
  | bottomLeft
  | bottomRight
deriving DecidableEq, Repr

namespace Corner

def of (corner : Corner) (r : Rect) : Point :=
  match corner with
  | topLeft => ⟨r.x0, r.y0⟩
  | topRight => ⟨r.x1, r.y0⟩
  | bottomLeft => ⟨r.x0, r.y1⟩
  | bottomRight => ⟨r.x1, r.y1⟩

def opposite : Corner → Corner
  | topLeft => bottomRight
  | topRight => bottomLeft
  | bottomLeft => topRight
  | bottomRight => topLeft

def ofName? (name : Text) : Option Corner :=
  if name = "topLeft".toList then some topLeft
  else if name = "topRight".toList then some topRight
  else if name = "bottomLeft".toList then some bottomLeft
  else if name = "bottomRight".toList then some bottomRight
  else none

end Corner

/-- What a drag does: it moves an element, moves its label, draws a region, or drags a region by one of its
corners. -/
inductive Tool where
  | move (origin : Position) (clamp : Bool)
  | label (origin : Vec)
  | draw (minSize : Float)
  | resize (bounds : Rect) (corner : Corner) (minSize : Float)
deriving Repr

inductive Preview where
  | position (position : Position)
  | offset (offset : Vec)
  | bounds (bounds : Rect)
deriving Repr

namespace Tool

def ofRegion (first second : Position) (corner : Corner) (viewport : Viewport) (config : Config) :
    Tool :=
  .resize (.ofPositions first second viewport) corner config.minRegionSize

/-- The bounds if they are large enough to be shown. -/
def shown? (bounds : Rect) (minSize : Float) : Option Preview :=
  if bounds.isAtLeast minSize then some (.bounds bounds) else none

def preview? (tool : Tool) (viewport : Viewport) (drag : Drag) : Option Preview :=
  match tool with
  | .move origin clamp => some (.position (origin.drag drag.delta viewport clamp))
  | .label origin => some (.offset (origin.add drag.delta))
  | .draw minSize => shown? (.ofCorners drag.start drag.current) minSize
  | .resize bounds corner minSize =>
    let moved := (corner.of bounds).add (drag.current.sub drag.start)
    shown? (.ofCorners (corner.opposite.of bounds) moved) minSize

end Tool

/-- An element that is about to be dragged, or is being dragged, with a tool on a canvas. -/
structure Gesture where
  element : Element
  viewport : Viewport
  tool : Tool
  drag : Option Drag := none
deriving Repr

namespace Gesture

def isActive (g : Gesture) : Bool :=
  g.drag.isSome

def preview? (g : Gesture) : Option Preview :=
  g.drag.bind (g.tool.preview? g.viewport)

/-- The mutation that makes the element what the preview shows. -/
def mutation (g : Gesture) : Preview → Mutation
  | .position position => .move g.element position
  | .offset offset => .setLabel g.element offset
  | .bounds bounds => .resizeRegion g.element bounds g.viewport

def release? (g : Gesture) (drag : Drag) : Option Mutation :=
  if drag.delta.isNonzero then (g.tool.preview? g.viewport drag).map g.mutation else none

/-- The gesture after an input, and the mutation that the input completes. -/
def handle (g : Gesture) : Input → Gesture × Option Mutation
  | .pointer .down point _ => ({ g with drag := some (.press point) }, none)
  | .pointer .move point shift => ({ g with drag := g.drag.map (·.update point shift) }, none)
  | .pointer .up point shift =>
    ({ g with drag := none }, g.drag.bind fun drag => g.release? (drag.update point shift))
  | .cancel => ({ g with drag := none }, none)

end Gesture

end WardleyMap
