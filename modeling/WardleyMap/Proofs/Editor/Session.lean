import WardleyMap.Editor.Call
import WardleyMap.Proofs.Mutation.Run

/-!
# Sessions

A session is what the host sees of an editor: its calls, what they were answered, and the map texts it was
handed. A text is handed over by a request or by the release of the pointer, once, and just when the call is
answered with success, whatever the host does with the text or with a message.

A gesture in progress is what a release needs to hand a text over, and only a call that begins one can bring
it about. So the gesture is one text that may still come, and a session has at most as many texts from
releases as gestures have begun in it; between the end of a gesture and the beginning of the next one, the
pointer has no effect.
-/

namespace WardleyMap

namespace Call

def isBegin : Call → Bool
  | beginMove _ _ | beginLabel _ _ | beginDraw _ | beginResize _ _ _ _ => true
  | _ => false

def isPointer : Call → Bool
  | pointerDown _ _ | pointerMove _ _ | pointerUp _ _ _ => true
  | _ => false

def endsGesture : Call → Bool
  | pointerUp _ _ _ | cancel => true
  | _ => false

def mayCommit : Call → Bool
  | apply _ _ | pointerUp _ _ _ => true
  | _ => false

end Call

theorem Answer.done_beq (succeeded : Bool) : (Answer.done succeeded == .done true) = succeeded := by
  cases succeeded <;> rfl

/-- A call as it went: what it was answered, and the map texts that the host was handed on the way. -/
structure Exchange where
  call : Call
  answer : Answer
  commits : List Text

namespace Exchange

def succeeded (e : Exchange) : Bool :=
  e.answer == .done true

def begins (e : Exchange) : Bool :=
  e.call.isBegin && e.succeeded

/-- The texts that the release of the pointer has handed to the host. -/
def released (e : Exchange) : List Text :=
  match e.call with
  | .pointerUp _ _ _ => e.commits
  | _ => []

end Exchange

namespace Editor

def exchange (editor : Editor) (host : Host) (call : Call) : Exchange :=
  let (_, answer, events) := editor.step host call
  ⟨call, answer, events.filterMap Event.committed?⟩

def session (editor : Editor) : List (Host × Call) → List Exchange
  | [] => []
  | (host, call) :: calls => editor.exchange host call :: (editor.step host call).1.session calls

variable {editor : Editor} {host : Host} {call : Call}

/-! ### What a host is handed -/

theorem committed?_receive (host : Host) (event : Event) :
    (host.receive event).filterMap Event.committed? = event.committed?.toList := by
  cases event with
  | commit text =>
      rw [Host.receive]
      split <;> rfl
  | log | alert | console => rfl

theorem committed?_flatMap_receive (host : Host) (events : List Event) :
    (events.flatMap host.receive).filterMap Event.committed? = events.filterMap Event.committed? := by
  rw [List.filterMap_flatMap, List.filterMap_eq_flatMap_toList]
  simp only [committed?_receive]

theorem committed?_report (host : Host) (refusal : Refusal) :
    (host.report refusal).filterMap Event.committed? = [] := by
  unfold Host.report
  split
  · rfl
  · split <;> rfl

/-- Neither a host that throws nor a message to it adds or takes a text. -/
theorem committed?_commit (editor : Editor) (host : Host) (text : Text) (mutation : Mutation) :
    (editor.commit host text mutation).2.filterMap Event.committed?
      = mutation.commits text editor.config := by
  unfold commit Mutation.commits
  dsimp only
  split
  · exact committed?_flatMap_receive host _
  · rw [List.filterMap_append, committed?_flatMap_receive, committed?_report, List.append_nil]

theorem commit_fst_iff {text : Text} {mutation : Mutation} :
    (editor.commit host text mutation).1 = true ↔
      (mutation.dispatch text editor.config).1 = .ok true := by
  unfold commit
  dsimp only
  split
  · next committed hresult => simp [hresult]
  · next refusal hresult => simp [hresult]

theorem length_commits (editor : Editor) (host : Host) (text : Text) (mutation : Mutation) :
    (mutation.commits text editor.config).length = (editor.commit host text mutation).1.toNat := by
  by_cases hresult : (mutation.dispatch text editor.config).1 = .ok true
  · obtain ⟨next, happly⟩ := Mutation.dispatch_eq_ok_true_iff.mp hresult
    rw [commit_fst_iff.mpr hresult, Mutation.commits_eq, happly]
    rfl
  · rw [Bool.eq_false_iff.mpr (mt commit_fst_iff.mp hresult), Mutation.commits_eq_nil hresult]
    rfl

/-- A request hands over just what its preview shows. -/
theorem committed?_apply (editor : Editor) (host : Host) (text request : Text) :
    (editor.apply host text request).2.filterMap Event.committed?
      = (editor.preview text request).1.toList := by
  unfold apply preview
  cases Request.mutation request editor.viewport with
  | error error => rfl
  | ok mutation =>
      dsimp only
      rw [committed?_commit, Mutation.commits_eq]
      cases mutation.apply text editor.config with
      | error refusal => rfl
      | ok outcome => cases outcome <;> rfl

theorem committed?_preview (editor : Editor) (text request : Text) :
    (editor.preview text request).2.filterMap Event.committed? = [] := by
  unfold preview
  split
  · rfl
  · dsimp only
    split <;> exact Mutation.committed?_mismatches _

theorem length_apply (editor : Editor) (host : Host) (text request : Text) :
    ((editor.apply host text request).2.filterMap Event.committed?).length
      = (editor.apply host text request).1.toNat := by
  unfold apply
  split
  · next mutation hrequest => rw [committed?_commit, length_commits]
  · next error hrequest => rfl

theorem length_pointerUp (editor : Editor) (host : Host) (text : Text) (point : Point) (shift : Bool) :
    ((editor.pointerUp host text point shift).2.2.filterMap Event.committed?).length
      = (editor.pointerUp host text point shift).2.1.toNat := by
  unfold pointerUp
  dsimp only
  split
  · next mutation hfeed => rw [committed?_commit, length_commits]
  · next hfeed => rfl

theorem committed?_begin (editor : Editor) (element : Text) (tool : Tool) :
    (editor.begin element tool).2.2.filterMap Event.committed? = [] := by
  unfold begin
  split <;> rfl

/-- Only two of the calls hand a text to the host at all. -/
theorem commits_of_mayCommit_eq_false (h : call.mayCommit = false) :
    (editor.exchange host call).commits = [] := by
  cases call with
  | apply | pointerUp => cases h
  | resize | pointerDown | pointerMove | cancel => rfl
  | setConfig config =>
      change (editor.setConfig config).2.2.filterMap Event.committed? = []
      unfold setConfig
      split <;> rfl
  | preview text request => exact committed?_preview editor text request
  | beginMove element origin => exact committed?_begin editor element _
  | beginLabel element origin => exact committed?_begin editor element _
  | beginDraw element => exact committed?_begin editor element _
  | beginResize element first second corner =>
      change (editor.beginResize element first second corner).2.2.filterMap Event.committed? = []
      unfold beginResize
      split
      · exact committed?_begin editor element _
      · rfl

/-- A call hands over one text if it answers so, and else none. -/
theorem length_commits_exchange (editor : Editor) (host : Host) (call : Call) :
    (editor.exchange host call).commits.length
      = (call.mayCommit && (editor.exchange host call).succeeded).toNat := by
  cases hcall : call.mayCommit with
  | false => rw [commits_of_mayCommit_eq_false hcall]; rfl
  | true =>
      cases call with
      | apply text request =>
          change _ = (Answer.done (editor.apply host text request).1 == .done true).toNat
          rw [Answer.done_beq]
          exact length_apply editor host text request
      | pointerUp text point shift =>
          change _ = (Answer.done (editor.pointerUp host text point shift).2.1 == .done true).toNat
          rw [Answer.done_beq]
          exact length_pointerUp editor host text point shift
      | _ => cases hcall

/-! ### When a gesture is in progress -/

theorem isSome_gesture_feed (editor : Editor) (input : Input) :
    (editor.feed input).1.gesture.isSome = editor.gesture.isSome := by
  unfold feed
  split
  · next gesture hgesture => rw [hgesture]; rfl
  · rfl

theorem isSome_gesture_begin (editor : Editor) (element : Text) (tool : Tool) :
    (editor.begin element tool).1.gesture.isSome = (editor.begin element tool).2.1 := by
  unfold begin
  split <;> rfl

theorem begins_of_step_eq {element : Text} {tool : Tool} (hcall : call.isBegin = true)
    (hstep : editor.step host call = step.answered (editor.begin element tool))
    (h : (editor.step host call).1.gesture.isSome = true) :
    (editor.exchange host call).begins = true := by
  rw [hstep] at h
  change (call.isBegin && (editor.step host call).2.1 == .done true) = true
  rw [hcall, hstep, Bool.true_and]
  change (Answer.done (editor.begin element tool).2.1 == .done true) = true
  rw [Answer.done_beq, ← isSome_gesture_begin]
  exact h

theorem gesture_of_endsGesture (h : call.endsGesture = true) :
    (editor.step host call).1.gesture = none := by
  cases call with
  | cancel => rfl
  | pointerUp text point shift =>
      change (editor.pointerUp host text point shift).1.gesture = none
      unfold pointerUp
      dsimp only
      split <;> rfl
  | _ => cases h

/-- A gesture that is in progress after a call was so before, or the call has begun it. -/
theorem isSome_gesture_step (h : (editor.step host call).1.gesture.isSome = true) :
    editor.gesture.isSome = true ∨ (editor.exchange host call).begins = true := by
  cases call with
  | resize | apply | preview => exact Or.inl h
  | setConfig config =>
      change (editor.setConfig config).1.gesture.isSome = true at h
      unfold setConfig at h
      split at h <;> exact Or.inl h
  | pointerDown | pointerMove => exact Or.inl ((isSome_gesture_feed editor _).symm.trans h)
  | pointerUp | cancel =>
      rw [gesture_of_endsGesture rfl] at h
      cases h
  | beginMove | beginLabel | beginDraw => exact Or.inr (begins_of_step_eq rfl rfl h)
  | beginResize element first second corner =>
      cases hcorner : Request.cornerOf corner with
      | ok corner => exact Or.inr (begins_of_step_eq rfl (by rw [step, beginResize, hcorner]) h)
      | error error =>
          -- Without such a corner the gesture goes on, and none begins.
          rw [step, beginResize, hcorner] at h
          exact Or.inl h

theorem commits_of_gesture_eq_none (hgesture : editor.gesture = none) (h : call.isPointer = true) :
    (editor.exchange host call).commits = [] := by
  cases call with
  | pointerDown | pointerMove => rfl
  | pointerUp text point shift =>
      change (editor.pointerUp host text point shift).2.2.filterMap Event.committed? = []
      rw [pointerUp, feed, hgesture]
      rfl
  | _ => cases h

/-! ### Sessions -/

theorem exists_of_mem_session {calls : List (Host × Call)} {e : Exchange} (h : e ∈ editor.session calls) :
    ∃ (editor : Editor) (host : Host) (call : Call), e = editor.exchange host call := by
  induction calls generalizing editor with
  | nil => cases h
  | cons step calls ih =>
      obtain ⟨host, call⟩ := step
      rcases List.mem_cons.mp h with rfl | h
      · exact ⟨editor, host, call, rfl⟩
      · exact ih h

/-- Without a call that begins a gesture, none is in progress, and the pointer has no effect. -/
theorem session_without_gesture {calls : List (Host × Call)} (hgesture : editor.gesture = none)
    (h : ∀ e ∈ editor.session calls, e.begins = false) :
    (editor.run calls).gesture = none ∧
      ∀ e ∈ editor.session calls, e.call.isPointer = true → e.commits = [] := by
  induction calls generalizing editor with
  | nil => exact ⟨hgesture, by simp [session]⟩
  | cons step calls ih =>
      obtain ⟨host, call⟩ := step
      rw [session, List.forall_mem_cons] at h
      obtain ⟨hcall, hcalls⟩ := h
      have hnext : (editor.step host call).1.gesture = none := by
        by_contra hsome
        rcases isSome_gesture_step (Option.isSome_iff_ne_none.mpr hsome) with hold | hbegins
        · rw [hgesture] at hold
          cases hold
        · rw [hcall] at hbegins
          cases hbegins
      obtain ⟨hrun, hsession⟩ := ih hnext hcalls
      rw [session, List.forall_mem_cons]
      exact ⟨hrun, commits_of_gesture_eq_none hgesture, hsession⟩

theorem gesturePreview_eq_nil (h : editor.gesture = none) : editor.gesturePreview = [] := by
  rw [gesturePreview, h]
  rfl

theorem length_released_le_one (editor : Editor) (host : Host) (call : Call) :
    (editor.exchange host call).released.length ≤ 1 := by
  unfold Exchange.released
  split
  · rw [length_commits_exchange]
    exact Bool.toNat_le _
  · exact Nat.zero_le 1

/-- Only a release that ends a gesture hands over a text. -/
theorem ends_of_released_ne_nil (h : (editor.exchange host call).released ≠ []) :
    call.endsGesture = true ∧ editor.gesture.isSome = true := by
  cases call with
  | pointerUp text point shift =>
      refine ⟨rfl, ?_⟩
      by_contra hsome
      exact h (commits_of_gesture_eq_none (Option.not_isSome_iff_eq_none.mp hsome) rfl)
  | _ => exact absurd rfl h

/-- A gesture in progress is a text that may still come, and only a call that begins one brings it. -/
theorem length_released_exchange_le (editor : Editor) (host : Host) (call : Call) :
    (editor.exchange host call).released.length + (editor.step host call).1.gesture.isSome.toNat
      ≤ (editor.exchange host call).begins.toNat + editor.gesture.isSome.toNat := by
  -- A release that hands over a text ends the gesture, so the two are never counted together.
  by_cases hreleased : (editor.exchange host call).released = []
  · rw [hreleased, List.length_nil, Nat.zero_add]
    cases hsome : (editor.step host call).1.gesture.isSome with
    | false => exact Nat.zero_le _
    | true => rcases isSome_gesture_step hsome with h | h <;> simp [h]
  · obtain ⟨hends, hsome⟩ := ends_of_released_ne_nil hreleased
    rw [gesture_of_endsGesture hends, hsome]
    exact (length_released_le_one editor host call).trans (Nat.le_add_left 1 _)

theorem length_released_le (editor : Editor) (calls : List (Host × Call)) :
    ((editor.session calls).flatMap Exchange.released).length
      ≤ (editor.session calls).countP Exchange.begins + editor.gesture.isSome.toNat := by
  induction calls generalizing editor with
  | nil => exact Nat.zero_le _
  | cons step calls ih =>
      obtain ⟨host, call⟩ := step
      have hrest := ih (editor.step host call).1
      have hstep := length_released_exchange_le editor host call
      rw [session, List.flatMap_cons, List.length_append, List.countP_cons, ← Bool.cond_eq_ite]
      change _ ≤ _ + (editor.exchange host call).begins.toNat + _
      omega

/-- Along every session of a new editor a text is handed to the host by a request or a release, once, and
just when the call answers so. Once the pointer has been released or the gesture given up, there is nothing
to show and the pointer has no effect, until a gesture begins: releases hand over at most as many texts as
gestures have begun. A request and its preview leave the editor as it is, and the preview shows the text that
the request would hand over. -/
theorem session_commits (viewport : Viewport) (calls : List (Host × Call)) :
    let editor : Editor := { viewport }
    let now := editor.run calls
    let exchanges := editor.session calls
    (∀ e ∈ exchanges, e.commits.length = (e.call.mayCommit && e.succeeded).toNat) ∧
    (∀ host call, call.endsGesture = true →
      let ended := (now.step host call).1
      ∀ later, (∀ e ∈ ended.session later, e.begins = false) →
        (ended.run later).gesturePreview = [] ∧
        ∀ e ∈ ended.session later, e.call.isPointer = true → e.commits = []) ∧
    (exchanges.flatMap Exchange.released).length ≤ exchanges.countP Exchange.begins ∧
    ∀ host text request,
      (now.step host (.apply text request)).1 = now ∧
      (now.step host (.preview text request)).1 = now ∧
      ∀ next, (now.exchange host (.preview text request)).answer = .text (some next) ↔
        (now.exchange host (.apply text request)).commits = [next] := by
  intro editor now exchanges
  refine ⟨fun e he => ?_, ?_, length_released_le editor calls,
    fun host text request => ⟨rfl, rfl, fun next => ?_⟩⟩
  · obtain ⟨reached, host, call, rfl⟩ := exists_of_mem_session he
    exact length_commits_exchange reached host call
  · intro host call hends ended later hlater
    obtain ⟨hgesture, hpointer⟩ := session_without_gesture (gesture_of_endsGesture hends) hlater
    exact ⟨gesturePreview_eq_nil hgesture, hpointer⟩
  · change Answer.text (now.preview text request).1 = _ ↔
      (now.apply host text request).2.filterMap Event.committed? = _
    rw [committed?_apply, Answer.text.injEq]
    cases (now.preview text request).1 <;> simp

/-- A label is dragged, and the host throws when it is handed the text. Then the gesture is over: the pointer
has no effect, also after an attempt to draw a region for an element that cannot be read. -/
theorem session_commits_label :
    let host : Host := { sinkThrows := true }
    let text : Text := "component A [0.5, 0.5]".toList
    let moved : Text := "component A [0.5, 0.5] label [35.00, 0.00]".toList
    let element : Text := "[\"component\", \"A\", 1]".toList
    let request : Text := "[\"setLabel\", [\"component\", \"A\", 1], 35, 0]".toList
    let release : Call := .pointerUp text ⟨50.0, 30.0⟩ false
    let calls := [.beginLabel element ⟨5.0, -10.0⟩, .pointerDown ⟨20.0, 20.0⟩ false].map (host, ·)
    let later := [.pointerDown ⟨1.0, 2.0⟩ false, .beginDraw [], release].map (host, ·)
    let editor : Editor := { viewport := ⟨800.0, 600.0⟩ }
    let ended := ((editor.run calls).step host release).1
    ((editor.run calls).exchange host release).commits = [moved] ∧
      (ended.run later).gesturePreview = [] ∧
      (∀ e ∈ ended.session later, e.call.isPointer = true → e.commits = []) ∧
      ((editor.session (calls ++ (host, release) :: later)).flatMap Exchange.released).length ≤ 1 ∧
      (editor.exchange host (.apply text request)).commits = [moved] := by
  intro host text moved element request release calls later editor ended
  have hlater : ∀ e ∈ ended.session later, e.begins = false := by decide +kernel
  have hpreview : (editor.exchange host (.preview text request)).answer = .text (some moved) := by
    decide +kernel
  have hcommits : ((editor.run calls).exchange host release).commits = [moved] := by decide +kernel
  obtain ⟨-, hended, -, -⟩ := session_commits editor.viewport calls
  obtain ⟨-, -, hcount, -⟩ := session_commits editor.viewport (calls ++ (host, release) :: later)
  obtain ⟨-, -, -, hrequest⟩ := session_commits editor.viewport []
  obtain ⟨hshown, hpointer⟩ := hended host release rfl later hlater
  refine ⟨hcommits, hshown, hpointer, hcount.trans ?_, ((hrequest host text request).2.2 moved).mp hpreview⟩
  decide +kernel

end Editor

end WardleyMap
