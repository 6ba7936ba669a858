import Mathlib.Data.List.Induction
import WardleyMap.Gesture.Tool
import WardleyMap.Proofs.Geometry.Motion

/-!
# Runs of a gesture

A gesture is fed with inputs in any order: presses during a drag, moves before a press, releases of a pointer
that is not down. What it remembers of them is the point of the last press, as long as nothing but moves has
followed (`Input.PressedAt`). All that a release comes to is decided by this point, by the point of the
release and by its shift key, and it is what the preview would show there.

Each press can be released once. So a run completes no more mutations than it has presses: an active drag is
one mutation that may still come, and a press is what brings it.
-/

namespace WardleyMap

namespace Input

def isPress : Input → Bool
  | pointer .down _ _ => true
  | pointer .move _ _ | pointer .up _ _ | cancel => false

def isMove : Input → Bool
  | pointer .move _ _ => true
  | pointer .down _ _ | pointer .up _ _ | cancel => false

def endsDrag : Input → Bool
  | pointer .up _ _ | cancel => true
  | pointer .down _ _ | pointer .move _ _ => false

/-- The pointer was pressed at the point, and it has only been moved since. -/
def PressedAt (inputs : List Input) (start : Point) : Prop :=
  ∃ before shift moves, inputs = before ++ pointer .down start shift :: moves ∧
    ∀ input ∈ moves, input.isMove = true

variable {inputs : List Input} {input : Input} {start : Point}

theorem not_pressedAt_nil (start : Point) : ¬PressedAt [] start := by
  rintro ⟨before, shift, moves, hsplit, -⟩
  simp at hsplit

/-- The last input decides: it presses the pointer there, or it moves a pointer that was pressed there. -/
theorem pressedAt_concat_iff : PressedAt (inputs ++ [input]) start ↔
    (∃ shift, input = pointer .down start shift) ∨ (input.isMove = true ∧ PressedAt inputs start) := by
  constructor
  · rintro ⟨before, shift, moves, hsplit, hmoves⟩
    rcases List.eq_nil_or_concat moves with rfl | ⟨moves, last, rfl⟩
    · obtain ⟨-, hinput⟩ := List.append_inj' hsplit rfl
      exact Or.inl ⟨shift, List.head_eq_of_cons_eq hinput⟩
    · rw [List.concat_eq_append] at hsplit hmoves
      rw [← List.cons_append, ← List.append_assoc] at hsplit
      obtain ⟨hinputs, hinput⟩ := List.append_inj' hsplit rfl
      obtain rfl := List.head_eq_of_cons_eq hinput
      refine Or.inr ⟨hmoves input (by simp), before, shift, moves, hinputs, fun other hother => ?_⟩
      exact hmoves other (List.mem_append_left _ hother)
  · rintro (⟨shift, rfl⟩ | ⟨hmove, before, shift, moves, rfl, hmoves⟩)
    · exact ⟨inputs, shift, [], rfl, by simp⟩
    · refine ⟨before, shift, moves ++ [input], by simp, fun other hother => ?_⟩
      rcases List.mem_append.mp hother with hother | hother
      · exact hmoves other hother
      · rwa [List.mem_singleton.mp hother]

end Input

namespace Gesture

open Input (PressedAt)

def after (g : Gesture) (inputs : List Input) : Gesture :=
  inputs.foldl (fun g input => (g.handle input).1) g

def completed (g : Gesture) : List Input → List Mutation
  | [] => []
  | input :: inputs => (g.handle input).2.toList ++ (g.handle input).1.completed inputs

variable {g : Gesture} {inputs : List Input} {start : Point}

theorem after_concat (g : Gesture) (inputs : List Input) (input : Input) :
    g.after (inputs ++ [input]) = ((g.after inputs).handle input).1 := by
  rw [after, List.foldl_append]
  rfl

/-! ### What a gesture keeps -/

theorem handle_fst (g : Gesture) (input : Input) :
    (g.handle input).1 = { g with drag := (g.handle input).1.drag } := by
  cases input with
  | pointer phase point shift => cases phase <;> rfl
  | cancel => rfl

/-- Inputs change the drag and nothing else. -/
theorem after_eq (g : Gesture) (inputs : List Input) :
    g.after inputs = { g with drag := (g.after inputs).drag } := by
  induction inputs using List.reverseRecOn with
  | nil => rfl
  | append_singleton inputs input ih =>
      rw [after_concat, handle_fst, ih]

/-- A drag is in progress exactly after the pointer has been pressed and only been moved since. -/
theorem exists_drag_iff (hg : g.drag = none) :
    (∃ drag, (g.after inputs).drag = some drag ∧ drag.start = start) ↔ PressedAt inputs start := by
  -- From the back: the last input decides, unless it is a move, which leaves the start as it was.
  induction inputs using List.reverseRecOn with
  | nil =>
      change (∃ drag, g.drag = some drag ∧ _) ↔ _
      simp [hg, Input.not_pressedAt_nil]
  | append_singleton inputs input ih =>
      rw [after_concat, Input.pressedAt_concat_iff, ← ih]
      cases input with
      | cancel => simp [handle, Input.isMove]
      | pointer phase point shift =>
          cases phase with
          | down => simp [handle, Input.isMove, Drag.press]
          | move => simp [handle, Input.isMove, Drag.update]
          | up => simp [handle, Input.isMove]

theorem exists_drag (hg : g.drag = none) (h : PressedAt inputs start) :
    ∃ drag, (g.after inputs).drag = some drag ∧ drag.start = start :=
  (exists_drag_iff hg).mpr h

/-! ### Releases -/

theorem handle_up (hg : g.drag = none) (h : PressedAt inputs start) (point : Point) (shift : Bool) :
    ((g.after inputs).handle (.pointer .up point shift)).2 = g.release? ⟨start, point, shift⟩ := by
  obtain ⟨drag, hdrag, rfl⟩ := exists_drag hg h
  rw [after_eq, hdrag]
  rfl

theorem preview?_move (hg : g.drag = none) (h : PressedAt inputs start) (point : Point) (shift : Bool) :
    ((g.after inputs).handle (.pointer .move point shift)).1.preview?
      = g.tool.preview? g.viewport ⟨start, point, shift⟩ := by
  obtain ⟨drag, hdrag, rfl⟩ := exists_drag hg h
  rw [after_eq, hdrag]
  rfl

theorem release?_eq_some_iff {drag : Drag} {mutation : Mutation} : g.release? drag = some mutation ↔
    drag.delta.isNonzero = true ∧ ∃ preview, g.tool.preview? g.viewport drag = some preview ∧
      mutation = g.mutation preview := by
  unfold release?
  split
  · next hmoved =>
      rw [Option.map_eq_some_iff]
      simp only [hmoved, true_and, eq_comm (a := mutation)]
  · next hstill => simp [hstill]

/-- The one input that completes a mutation is a release after a drag, and it completes what the preview of that
point shows. -/
theorem handle_eq_some_iff (hg : g.drag = none) {input : Input} {mutation : Mutation} :
    ((g.after inputs).handle input).2 = some mutation ↔
      ∃ start point shift preview, input = .pointer .up point shift ∧ PressedAt inputs start ∧
        (⟨start, point, shift⟩ : Drag).delta.isNonzero = true ∧
        ((g.after inputs).handle (.pointer .move point shift)).1.preview? = some preview ∧
        mutation = g.mutation preview := by
  constructor
  · intro h
    cases input with
    | cancel => cases h
    | pointer phase point shift =>
        cases phase with
        | down | move => cases h
        | up =>
            obtain ⟨drag, hdrag, -⟩ := Option.bind_eq_some_iff.mp h
            have hpressed := (exists_drag_iff hg).mp ⟨drag, hdrag, rfl⟩
            rw [handle_up hg hpressed] at h
            obtain ⟨hmoved, preview, hpreview, rfl⟩ := release?_eq_some_iff.mp h
            refine ⟨drag.start, point, shift, preview, rfl, hpressed, hmoved, ?_, rfl⟩
            rw [preview?_move hg hpressed, hpreview]
  · rintro ⟨start, point, shift, preview, rfl, hpressed, hmoved, hpreview, rfl⟩
    rw [preview?_move hg hpressed] at hpreview
    rw [handle_up hg hpressed]
    exact release?_eq_some_iff.mpr ⟨hmoved, preview, hpreview, rfl⟩

theorem release?_of_coincides {drag : Drag} (hfinite : drag.current.IsFinite)
    (h : drag.current.Coincides drag.start) : g.release? drag = none := by
  rw [release?, Drag.isNonzero_delta hfinite h]
  rfl

theorem drag_of_endsDrag (g : Gesture) {input : Input} (h : input.endsDrag = true) :
    (g.handle input).1.drag = none := by
  cases input with
  | cancel => rfl
  | pointer phase point shift =>
      cases phase with
      | down | move => cases h
      | up => rfl

/-! ### Presses and mutations -/

/-- An active drag is a mutation that may still come, and only a press brings one. -/
theorem length_handle_le (g : Gesture) (input : Input) :
    (g.handle input).2.toList.length + (g.handle input).1.isActive.toNat
      ≤ input.isPress.toNat + g.isActive.toNat := by
  cases input with
  | cancel => exact Nat.zero_le _
  | pointer phase point shift =>
      cases hdrag : g.drag with
      | none => cases phase <;> simp [handle, isActive, Input.isPress, hdrag]
      | some drag =>
          cases phase with
          | down => simp [handle, isActive, Input.isPress, hdrag]
          | move => simp [handle, isActive, Input.isPress, hdrag]
          | up =>
              simp only [handle, isActive, Input.isPress, hdrag, Option.bind_some]
              cases g.release? (drag.update point shift) <;> simp

theorem length_completed_le (g : Gesture) (inputs : List Input) :
    (g.completed inputs).length ≤ inputs.countP Input.isPress + g.isActive.toNat := by
  induction inputs generalizing g with
  | nil => exact Nat.zero_le _
  | cons input inputs ih =>
      have hrest := ih (g.handle input).1
      have hstep := length_handle_le g input
      rw [completed, List.length_append, List.countP_cons, ← Bool.cond_eq_ite]
      change _ ≤ _ + input.isPress.toNat + _
      omega

/-! ### What a gesture comes to -/

theorem preview?_eq_none (h : g.isActive = false) : g.preview? = none := by
  rw [preview?, Option.not_isSome_iff_eq_none.mp (Bool.eq_false_iff.mp h)]
  rfl

/-- Whatever a gesture has been fed with, only a release completes a mutation, and only of a pointer that is
down and has moved: it is the one that makes the element what the preview would show there. The inputs that led
there count for nothing but the point of the last press. With its release or when it is given up, a drag is
over and no longer shown, so that there are never more mutations than presses. -/
theorem completes_shown_preview (hg : g.drag = none) (inputs : List Input) :
    let now := g.after inputs
    (∀ input mutation, (now.handle input).2 = some mutation ↔
      ∃ start point shift preview, input = .pointer .up point shift ∧ PressedAt inputs start ∧
        (⟨start, point, shift⟩ : Drag).delta.isNonzero = true ∧
        (now.handle (.pointer .move point shift)).1.preview? = some preview ∧
        mutation = g.mutation preview) ∧
    (∀ others start point shift, PressedAt inputs start → PressedAt others start →
      (now.handle (.pointer .up point shift)).2
        = ((g.after others).handle (.pointer .up point shift)).2) ∧
    (∀ start point shift, PressedAt inputs start → point.IsFinite → point.Coincides start →
      (now.handle (.pointer .up point shift)).2 = none) ∧
    (∀ input, input.endsDrag = true →
      (now.handle input).1.isActive = false ∧ (now.handle input).1.preview? = none) ∧
    (g.completed inputs).length ≤ inputs.countP Input.isPress := by
  refine ⟨fun input mutation => handle_eq_some_iff hg, fun others start point shift h hothers => ?_,
    fun start point shift h hfinite hsame => ?_, fun input hends => ?_, ?_⟩
  · rw [handle_up hg h, handle_up hg hothers]
  · rw [handle_up hg h]
    exact release?_of_coincides hfinite hsame
  · have hinactive : ((g.after inputs).handle input).1.isActive = false := by
      rw [isActive, drag_of_endsDrag _ hends]
      rfl
    exact ⟨hinactive, preview?_eq_none hinactive⟩
  · have hinactive : g.isActive.toNat = 0 := by
      rw [isActive, hg]
      rfl
    have hlength := length_completed_le g inputs
    omega

/-- A label is pressed twice and dragged with the shift key held: it is moved along one axis from the second
press, as without the drag that was given up in between. -/
theorem completes_shown_preview_label :
    let element : Element := ⟨.component, ['A'], some 1, .placed⟩
    let g : Gesture := { element, viewport := ⟨800.0, 600.0⟩, tool := .label ⟨5.0, -10.0⟩ }
    let press : Input := .pointer .down ⟨20.0, 20.0⟩ false
    let drag : Input := .pointer .move ⟨90.0, 70.0⟩ false
    let release : Input := .pointer .up ⟨50.0, 30.0⟩ true
    let inputs := [.pointer .down ⟨1.0, 2.0⟩ true, drag, .cancel, drag, press, drag]
    ((g.after inputs).handle release).2 = some (.setLabel element ⟨35.0, -10.0⟩) ∧
      ((g.after inputs).handle release).2 = ((g.after [press]).handle release).2 ∧
      ((g.after inputs).handle (.pointer .up ⟨20.0, 20.0⟩ false)).2 = none ∧
      ((g.after inputs).handle release).1.preview? = none ∧
      (g.completed (inputs ++ [release, release])).length ≤ 2 := by
  intro element g press drag release inputs
  have hpressed : PressedAt inputs ⟨20.0, 20.0⟩ :=
    ⟨[.pointer .down ⟨1.0, 2.0⟩ true, drag, .cancel, drag], false, [drag], rfl, by simp [drag, Input.isMove]⟩
  have hpress : PressedAt [press] ⟨20.0, 20.0⟩ := ⟨[], false, [], rfl, by simp⟩
  obtain ⟨hreleased, hothers, hstill, hends, -⟩ := completes_shown_preview (g := g) rfl inputs
  obtain ⟨-, -, -, -, hcount⟩ := completes_shown_preview (g := g) rfl (inputs ++ [release, release])
  refine ⟨(hreleased _ _).mpr ⟨⟨20.0, 20.0⟩, ⟨50.0, 30.0⟩, true, .offset ⟨35.0, -10.0⟩, rfl, hpressed,
    by decide +kernel, ?_, rfl⟩, hothers _ _ _ _ hpressed hpress,
    hstill _ _ _ hpressed ⟨by decide +kernel, by decide +kernel⟩ ⟨by decide +kernel, by decide +kernel⟩,
    (hends _ rfl).2, hcount⟩
  rfl

end Gesture

end WardleyMap
