import WardleyMap.Proofs.Gesture.Run
import WardleyMap.Proofs.Mutation.Resize

/-!
# Drawing and resizing a region

A region is drawn from the point of the press, or dragged by one of its corners. Either way the drag has a
vertex that stays and one that follows the pointer, and what is shown is the upright rectangle between the
two, however far one has been dragged past the other (`Gesture.region_spans_diagonal`). A rectangle that is too
small is not shown, and what is not shown comes to no mutation, so that of the mutations that a gesture
completes none is refused for the size of its bounds.
-/

namespace WardleyMap

/-- What of a region is dragged: a new one is drawn, or the one between two positions is held by a
corner. -/
inductive Grip where
  | draw
  | handle (first second : Position) (corner : Corner)
deriving Repr

namespace Grip

def tool (grip : Grip) (viewport : Viewport) (config : Config) : Tool :=
  match grip with
  | draw => .draw config.minRegionSize
  | handle first second corner => .ofRegion first second corner viewport config

/-- The vertex that stays. -/
def anchor (grip : Grip) (viewport : Viewport) (start : Point) : Point :=
  match grip with
  | draw => start
  | handle first second corner => corner.opposite.of (.ofPositions first second viewport)

/-- The vertex that follows the pointer. -/
def moved (grip : Grip) (viewport : Viewport) (start current : Point) : Point :=
  match grip with
  | draw => current
  | handle first second corner =>
    (corner.of (.ofPositions first second viewport)).add (current.sub start)

variable {grip : Grip} {viewport : Viewport} {config : Config}

theorem preview?_eq (grip : Grip) (viewport : Viewport) (config : Config) (drag : Drag) :
    (grip.tool viewport config).preview? viewport drag = Tool.shown?
      (.ofCorners (grip.anchor viewport drag.start) (grip.moved viewport drag.start drag.current))
      config.minRegionSize := by
  cases grip <;> rfl

theorem preview?_eq_some {drag : Drag} {preview : Preview}
    (h : (grip.tool viewport config).preview? viewport drag = some preview) :
    ∃ bounds, preview = .bounds bounds ∧ bounds.isAtLeast config.minRegionSize = true ∧
      bounds = .ofCorners (grip.anchor viewport drag.start)
        (grip.moved viewport drag.start drag.current) := by
  rw [preview?_eq, Tool.shown?, Option.ite_none_right_eq_some] at h
  exact ⟨_, (Option.some.inj h.2).symm, h.1, rfl⟩

end Grip

def Input.lastPoint? (inputs : List Input) : Option Point :=
  inputs.getLast?.bind Input.point?

namespace Gesture

open Input (PressedAt lastPoint?)

variable {g : Gesture} {inputs : List Input}

/-- A drag remembers the point of its press and the point of the last input. -/
theorem pressedAt_lastPoint?_of_drag (hg : g.drag = none) {drag : Drag}
    (h : (g.after inputs).drag = some drag) :
    PressedAt inputs drag.start ∧ lastPoint? inputs = some drag.current := by
  refine ⟨(exists_drag_iff hg).mp ⟨drag, h, rfl⟩, ?_⟩
  rcases List.eq_nil_or_concat inputs with rfl | ⟨inputs, input, rfl⟩
  · rw [show g.after [] = g from rfl, hg] at h
    cases h
  · rw [List.concat_eq_append, after_concat] at h
    rw [List.concat_eq_append, lastPoint?, List.getLast?_concat]
    cases input with
    | cancel => cases h
    | pointer phase point shift =>
        cases phase with
        | up => cases h
        | down =>
            obtain rfl := Option.some.inj h
            rfl
        | move =>
            obtain ⟨_, -, rfl⟩ := Option.map_eq_some_iff.mp h
            rfl

/-- Whatever a region has been dragged through, what is shown of it, and what a release makes of it, is the
upright rectangle that has the vertex opposite to the dragged one where it was and the dragged one where the
pointer has taken it. No mutation that comes of it is refused for the size of its bounds. -/
theorem region_spans_diagonal (element : Element) (viewport : Viewport) (config : Config) (grip : Grip)
    (inputs : List Input) :
    let now := Gesture.after { element, viewport, tool := grip.tool viewport config } inputs
    (∀ preview, now.preview? = some preview → ∃ bounds start current, preview = .bounds bounds ∧
      PressedAt inputs start ∧ lastPoint? inputs = some current ∧
      ((grip.anchor viewport start).IsFinite → (grip.moved viewport start current).IsFinite →
        bounds.IsUpright ∧
          bounds.Spans (grip.anchor viewport start) (grip.moved viewport start current))) ∧
    (∀ input mutation, (now.handle input).2 = some mutation → ∃ bounds start current,
      mutation = .resizeRegion element bounds viewport ∧
      PressedAt inputs start ∧ input.point? = some current ∧
      ((grip.anchor viewport start).IsFinite → (grip.moved viewport start current).IsFinite →
        bounds.IsUpright ∧
          bounds.Spans (grip.anchor viewport start) (grip.moved viewport start current)) ∧
      ∀ text, (mutation.dispatch text config).1 ≠ .error .regionTooSmall) ∧
    ∀ first second : Position, (first.toPoint viewport).IsFinite → (second.toPoint viewport).IsFinite →
      (Rect.ofPositions first second viewport).IsUpright ∧
        (Rect.ofPositions first second viewport).Spans (first.toPoint viewport)
          (second.toPoint viewport) := by
  intro now
  refine ⟨fun preview h => ?_, fun input mutation h => ?_,
    fun first second => Rect.isUpright_spans_ofCorners⟩
  · obtain ⟨drag, hdrag, hpreview⟩ := Option.bind_eq_some_iff.mp h
    obtain ⟨hpressed, hlast⟩ := pressedAt_lastPoint?_of_drag rfl hdrag
    rw [show now = { now with drag := now.drag } from rfl, show now = _ from after_eq _ inputs] at hpreview
    obtain ⟨bounds, rfl, -, rfl⟩ := Grip.preview?_eq_some hpreview
    exact ⟨_, drag.start, drag.current, rfl, hpressed, hlast, Rect.isUpright_spans_ofCorners⟩
  · obtain ⟨start, point, shift, preview, rfl, hpressed, -, hpreview, rfl⟩ := (handle_eq_some_iff rfl).mp h
    rw [preview?_move rfl hpressed] at hpreview
    obtain ⟨bounds, rfl, hsize, rfl⟩ := Grip.preview?_eq_some hpreview
    exact ⟨_, start, point, rfl, hpressed, rfl, Rect.isUpright_spans_ofCorners,
      Mutation.dispatch_resizeRegion_ne hsize⟩

/-- The lower right corner is dragged past the upper left one, on both axes. -/
theorem region_spans_diagonal_flipped :
    let element : Element := ⟨.pioneers, [], some 1, .placed⟩
    let viewport : Viewport := ⟨800.0, 600.0⟩
    let grip : Grip := .handle ⟨0.25, 0.75⟩ ⟨0.5, 0.5⟩ .bottomRight
    let g : Gesture := { element, viewport, tool := grip.tool viewport {} }
    let inputs : List Input := [.pointer .down ⟨401.0, 302.0⟩ false, .pointer .move ⟨500.0, 40.0⟩ true]
    let bounds : Rect := ⟨50.0, 40.0, 200.0, 150.0⟩
    ((g.after inputs).handle (.pointer .up ⟨51.0, 42.0⟩ false)).2
      = some (.resizeRegion element bounds viewport) ∧
    bounds.IsUpright ∧ bounds.Spans ⟨200.0, 150.0⟩ ⟨50.0, 40.0⟩ := by
  intro element viewport grip g inputs bounds
  have hanchor : grip.anchor viewport ⟨401.0, 302.0⟩ = ⟨200.0, 150.0⟩ := by
    dsimp only [grip, viewport]
    rfl
  have hmoved : grip.moved viewport ⟨401.0, 302.0⟩ ⟨51.0, 42.0⟩ = ⟨50.0, 40.0⟩ := by
    dsimp only [grip, viewport]
    rfl
  have hcorners : Rect.ofCorners ⟨200.0, 150.0⟩ ⟨50.0, 40.0⟩ = bounds := rfl
  have hpressed : PressedAt inputs ⟨401.0, 302.0⟩ := ⟨[], false, [_], rfl, by simp [Input.isMove]⟩
  have hpreview : (grip.tool viewport {}).preview? viewport ⟨⟨401.0, 302.0⟩, ⟨51.0, 42.0⟩, false⟩
      = some (.bounds bounds) := by
    rw [Grip.preview?_eq, hanchor, hmoved, hcorners]
    exact if_pos (by decide +kernel)
  have hreleased : ((g.after inputs).handle (.pointer .up ⟨51.0, 42.0⟩ false)).2
      = some (.resizeRegion element bounds viewport) := by
    rw [handle_up rfl hpressed, release?_eq_some_iff]
    exact ⟨by decide +kernel, _, hpreview, rfl⟩
  obtain ⟨_, start, current, hbounds, hstart, hcurrent, hspans, -⟩ :=
    (region_spans_diagonal element viewport {} grip inputs).2.1 _ _ hreleased
  obtain ⟨drag, hdrag, rfl⟩ := (exists_drag_iff (g := g) rfl).mpr hstart
  obtain rfl : (⟨⟨401.0, 302.0⟩, ⟨500.0, 40.0⟩, true⟩ : Drag) = drag := Option.some.inj hdrag
  obtain rfl : (⟨51.0, 42.0⟩ : Point) = current := Option.some.inj hcurrent
  obtain ⟨-, rfl, -⟩ := Mutation.resizeRegion.inj hbounds
  rw [hanchor, hmoved] at hspans
  exact ⟨hreleased, hspans ⟨by decide +kernel, by decide +kernel⟩ ⟨by decide +kernel, by decide +kernel⟩⟩

end Gesture

end WardleyMap
