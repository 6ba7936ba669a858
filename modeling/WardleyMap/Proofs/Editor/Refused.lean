import WardleyMap.Proofs.Editor.Session

/-!
# Gestures that do not begin

A call that was to begin a gesture and was refused leaves none in progress, also not the one that was in
progress before: the element could not be read, and `Editor.begin` gives up the gesture then. The name of a corner
is looked at in front of the element, and if there is no such corner the call leaves the editor as it is. So a
gesture outlives a refusal just when the call names no corner, and the next release may still hand a text over.
-/

namespace WardleyMap

/-- The call is to drag a corner, and there is none with the name it gives. -/
def Call.misnamesCorner : Call → Bool
  | beginResize _ _ _ corner => (Corner.ofName? corner).isNone
  | _ => false

namespace Editor

variable {editor : Editor} {host : Host} {call : Call}

/-- A corner without a name is noticed before anything is changed, the gesture in progress included. -/
theorem step_of_misnamesCorner (h : call.misnamesCorner = true) :
    (editor.step host call).1 = editor ∧ (editor.exchange host call).succeeded = false := by
  cases call with
  | beginResize element first second corner =>
      have hcorner : Corner.ofName? corner = none := Option.isNone_iff_eq_none.mp h
      have hresize : editor.beginResize element first second corner
          = (editor, false, [.log .warn (RequestError.unknownCorner corner).message]) := by
        rw [beginResize, Request.cornerOf, hcorner]
      have hstep : editor.step host (.beginResize element first second corner)
          = step.answered (editor.beginResize element first second corner) := rfl
      rw [exchange, hstep, hresize]
      exact ⟨rfl, rfl⟩
  | _ => cases h

/-- A call that begins a gesture does so with a tool on an element, unless it names no corner. -/
theorem exists_step_begin (hcall : call.isBegin = true) (hcorner : call.misnamesCorner = false) :
    ∃ element tool, editor.step host call = step.answered (editor.begin element tool) := by
  cases call with
  | beginMove element origin => exact ⟨element, _, rfl⟩
  | beginLabel element origin => exact ⟨element, _, rfl⟩
  | beginDraw element => exact ⟨element, _, rfl⟩
  | beginResize element first second name =>
      obtain ⟨corner, hname⟩ := Option.isSome_iff_exists.mp (Option.isNone_eq_false_iff.mp hcorner)
      refine ⟨element, .ofRegion first second corner editor.viewport editor.config, ?_⟩
      rw [step, beginResize, Request.cornerOf, hname]
  | _ => cases hcall

/-- A gesture is in progress after the call just when the call was answered so. -/
theorem isSome_gesture_of_isBegin (hcall : call.isBegin = true) (hcorner : call.misnamesCorner = false) :
    (editor.step host call).1.gesture.isSome = (editor.exchange host call).succeeded := by
  obtain ⟨element, tool, hstep⟩ := @exists_step_begin editor host call hcall hcorner
  rw [Exchange.succeeded, exchange, hstep]
  change (editor.begin element tool).1.gesture.isSome
    = (Answer.done (editor.begin element tool).2.1 == .done true)
  rw [Answer.done_beq, isSome_gesture_begin]

theorem gesture_of_refused (hcall : call.isBegin = true)
    (hrefused : (editor.exchange host call).succeeded = false) :
    (editor.step host call).1.gesture = none ↔ (call.misnamesCorner = true → editor.gesture = none) := by
  cases hcorner : call.misnamesCorner with
  | true =>
      rw [(step_of_misnamesCorner hcorner).1]
      exact ⟨fun hnone _ => hnone, fun hnone => hnone rfl⟩
  | false =>
      have hsome := @isSome_gesture_of_isBegin editor host call hcall hcorner
      rw [hrefused, Option.isSome_eq_false_iff, Option.isNone_iff_eq_none] at hsome
      exact ⟨fun _ hmisnames => (Bool.false_ne_true hmisnames).elim, fun _ => hsome⟩

/-- A refused call that was to begin a gesture leaves none in progress, unless it names no corner. Then it leaves
the editor as it is, with the gesture that was in progress. Where no gesture is left, there is nothing to show and
the pointer has no effect, until a gesture begins. -/
theorem session_refused (hcall : call.isBegin = true)
    (hrefused : (editor.exchange host call).succeeded = false) :
    let refused := (editor.step host call).1
    (call.misnamesCorner = true → refused = editor) ∧
    (refused.gesture = none ↔ (call.misnamesCorner = true → editor.gesture = none)) ∧
    (refused.gesture = none → ∀ later, (∀ e ∈ refused.session later, e.begins = false) →
      (refused.run later).gesturePreview = [] ∧
      ∀ e ∈ refused.session later, e.call.isPointer = true → e.commits = []) := by
  intro refused
  refine ⟨fun hmisnames => (step_of_misnamesCorner hmisnames).1, gesture_of_refused hcall hrefused, ?_⟩
  intro hgesture later hlater
  obtain ⟨hnone, hpointer⟩ := session_without_gesture hgesture hlater
  exact ⟨gesturePreview_eq_nil hnone, hpointer⟩

/-- A component is being dragged when a region is to be drawn for an element that cannot be read. The drag is over
then, and so it stays when the next call names no corner. -/
theorem session_refused_draw :
    let host : Host := {}
    let element : Text := "[\"component\", \"A\", 1]".toList
    let text : Text := "component A [0.5, 0.5]".toList
    let calls := [.beginMove element ⟨0.5, 0.5⟩, .pointerDown ⟨0.0, 0.0⟩ false].map (host, ·)
    let editor := ({ viewport := ⟨800.0, 600.0⟩ } : Editor).run calls
    let refused := (editor.step host (.beginDraw "[".toList)).1
    let later := [.pointerMove ⟨80.0, 60.0⟩ false, .beginResize element ⟨0.5, 0.5⟩ ⟨0.5, 0.5⟩ "middle".toList,
      .pointerUp text ⟨80.0, 60.0⟩ false].map (host, ·)
    editor.gesture.isSome = true ∧ refused.gesture = none ∧ (refused.run later).gesturePreview = [] ∧
      ∀ e ∈ refused.session later, e.call.isPointer = true → e.commits = [] := by
  intro host element text calls editor refused later
  have hrefused : (editor.exchange host (.beginDraw "[".toList)).succeeded = false := by decide +kernel
  have hlater : ∀ e ∈ refused.session later, e.begins = false := by decide +kernel
  obtain ⟨-, hiff, hnothing⟩ := session_refused rfl hrefused
  have hgesture : refused.gesture = none := hiff.mpr fun hmisnames => (Bool.false_ne_true hmisnames).elim
  obtain ⟨hshown, hpointer⟩ := hnothing hgesture later hlater
  exact ⟨by decide +kernel, hgesture, hshown, hpointer⟩

/-- Without such a corner the drag goes on, and the next release hands over what it comes to. -/
theorem not_session_refused_corner :
    let host : Host := {}
    let element : Text := "[\"component\", \"A\", 1]".toList
    let text : Text := "component A [0.5, 0.5]".toList
    let calls := [.beginMove element ⟨0.5, 0.5⟩, .pointerDown ⟨0.0, 0.0⟩ false].map (host, ·)
    let resize : Call := .beginResize element ⟨0.5, 0.5⟩ ⟨0.5, 0.5⟩ "middle".toList
    let editor := ({ viewport := ⟨800.0, 600.0⟩ } : Editor).run calls
    let refused := (editor.step host resize).1
    let release : Call := .pointerUp text ⟨80.0, 60.0⟩ false
    resize.isBegin = true ∧ (editor.exchange host resize).succeeded = false ∧ refused.gesturePreview ≠ [] ∧
      (refused.exchange host release).commits = ["component A [0.40, 0.60]".toList] := by
  decide +kernel

end Editor

end WardleyMap
