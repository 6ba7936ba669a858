/-!
# Points and rectangles

Pixel geometry of the canvas. A rectangle is given by two opposite corners and need not be upright; the
size of a region is that of its upright form.
-/

namespace WardleyMap

/-- The lesser of two numbers, the second of two that are equal. One that is not a number is passed
over. -/
def lesser (a b : Float) : Float :=
  if b.isNaN then a else if a < b then a else b

def greater (a b : Float) : Float :=
  if b.isNaN then a else if b < a then a else b

/-- The point of the unit interval nearest to `x`. What is not a number stays so. -/
def clampUnit (x : Float) : Float :=
  if x < 0.0 then 0.0 else if 1.0 < x then 1.0 else x

/-- A displacement on the canvas, in pixels. -/
structure Vec where
  dx : Float
  dy : Float
deriving Repr, Inhabited

namespace Vec

def isNonzero (v : Vec) : Bool :=
  v.dx != 0.0 || v.dy != 0.0

/-- The displacement along the axis on which it is longer; the vertical one if they are equal. -/
def alongAxis (v : Vec) : Vec :=
  if v.dy.abs < v.dx.abs then ⟨v.dx, 0.0⟩ else ⟨0.0, v.dy⟩

def add (v w : Vec) : Vec :=
  ⟨v.dx + w.dx, v.dy + w.dy⟩

end Vec

/-- A point of the canvas, in pixels from its upper left corner. -/
structure Point where
  x : Float
  y : Float
deriving Repr, Inhabited

namespace Point

def sub (p q : Point) : Vec :=
  ⟨p.x - q.x, p.y - q.y⟩

def add (p : Point) (v : Vec) : Point :=
  ⟨p.x + v.dx, p.y + v.dy⟩

end Point

structure Rect where
  x0 : Float
  y0 : Float
  x1 : Float
  y1 : Float
deriving Repr, Inhabited

namespace Rect

def upright (r : Rect) : Rect :=
  ⟨lesser r.x0 r.x1, lesser r.y0 r.y1, greater r.x0 r.x1, greater r.y0 r.y1⟩

def ofCorners (p q : Point) : Rect :=
  upright ⟨p.x, p.y, q.x, q.y⟩

def width (r : Rect) : Float :=
  r.x1 - r.x0

def height (r : Rect) : Float :=
  r.y1 - r.y0

def isAtLeast (r : Rect) (size : Float) : Bool :=
  size ≤ r.upright.width && size ≤ r.upright.height

end Rect

end WardleyMap
