/-!
# Configuration

What the person who edits the map may choose about how edits are written and when a region counts.
-/

namespace WardleyMap

/-- The choices that edits and gestures depend on. -/
structure Config where
  /-- The decimal places of every number that is written. -/
  precision : Nat := 2
  /-- The least width and height of a region, in pixels. -/
  minRegionSize : Float := 10.0
  /-- Keep dragged elements inside the map. -/
  clamp : Bool := true
deriving Repr, Inhabited

end WardleyMap
