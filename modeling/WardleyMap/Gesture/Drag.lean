import WardleyMap.Geometry

/-!
# Drags

What the pointing device reports, and what is remembered of a drag: where it started, where the pointer is
now, and whether the drag keeps to one axis. A drag starts with a press, and moves that no press precedes
are not part of any drag.
-/

namespace WardleyMap

inductive Phase where
  | down
  | move
  | up
deriving DecidableEq, Repr

/-- What the person who edits the map does: with the pointer, possibly with the shift key held, or to give
the gesture up. -/
inductive Input where
  | pointer (phase : Phase) (point : Point) (shift : Bool)
  | cancel
deriving Repr

namespace Input

def point? : Input → Option Point
  | pointer _ point _ => some point
  | cancel => none

def shift : Input → Bool
  | pointer _ _ shift => shift
  | cancel => false

end Input

structure Drag where
  start : Point
  current : Point
  shift : Bool
deriving Repr

namespace Drag

def press (point : Point) : Drag :=
  ⟨point, point, false⟩

def update (d : Drag) (point : Point) (shift : Bool) : Drag :=
  ⟨d.start, point, shift⟩

/-- How far the pointer has been dragged, along one axis if the shift key is held. -/
def delta (d : Drag) : Vec :=
  let delta := d.current.sub d.start
  if d.shift then delta.alongAxis else delta

end Drag

end WardleyMap
