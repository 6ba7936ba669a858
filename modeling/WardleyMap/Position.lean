import WardleyMap.Geometry

/-!
# Positions on the map

The map is the unit square: maturity grows to the right and visibility grows upwards. The canvas has its
origin at the upper left and grows downwards, so the vertical axis is flipped between them.
-/

namespace WardleyMap

structure Viewport where
  width : Float := 800.0
  height : Float := 600.0
deriving Repr, Inhabited

structure Position where
  maturity : Float
  visibility : Float
deriving Repr, Inhabited

namespace Position

def clamped (p : Position) : Position :=
  ⟨clampUnit p.maturity, clampUnit p.visibility⟩

def toPoint (p : Position) (viewport : Viewport) : Point :=
  ⟨p.maturity * viewport.width, (1.0 - p.visibility) * viewport.height⟩

/-- The position that the point shows, clamped if asked for. An axis of the canvas without extent shows
zero. -/
def ofPoint (point : Point) (viewport : Viewport) (clamp : Bool) : Position :=
  let position : Position :=
    ⟨if 0.0 < viewport.width then point.x / viewport.width else 0.0,
      if 0.0 < viewport.height then 1.0 - point.y / viewport.height else 0.0⟩
  if clamp then position.clamped else position

def drag (origin : Position) (delta : Vec) (viewport : Viewport) (clamp : Bool) : Position :=
  ofPoint ((origin.toPoint viewport).add delta) viewport clamp

end Position

namespace Rect

def ofPositions (first second : Position) (viewport : Viewport) : Rect :=
  ofCorners (first.toPoint viewport) (second.toPoint viewport)

def topLeft (r : Rect) (viewport : Viewport) : Position :=
  Position.ofPoint ⟨r.upright.x0, r.upright.y0⟩ viewport true

def bottomRight (r : Rect) (viewport : Viewport) : Position :=
  Position.ofPoint ⟨r.upright.x1, r.upright.y1⟩ viewport true

end Rect

end WardleyMap
