import WardleyMap.Gesture.PreviewText
import WardleyMap.Mutation.Dispatch
import WardleyMap.Request.Basic

/-!
# The editor

The editor keeps the size of the canvas, the configuration and the gesture in progress; the host keeps the
map text and passes it to every call that needs it. A call returns the editor afterwards, its answer, and
the events that the host and the person who edits the map get to see.
-/

namespace WardleyMap

/-- What can go wrong on the side of the host: it may throw while it takes a text or while it shows a
message, or have no window to show one in. -/
structure Host where
  sinkThrows : Bool := false
  alertThrows : Bool := false
  noWindow : Bool := false
deriving DecidableEq, Repr, Inhabited

structure Editor where
  viewport : Viewport
  config : Config := {}
  gesture : Option Gesture := none
deriving Repr

namespace Host

def receive (host : Host) : Event → List Event
  | .commit text =>
    if host.sinkThrows then [.commit text, .console "mutateMapText failed: sink threw"]
    else [.commit text]
  | event => [event]

def report (host : Host) (refusal : Refusal) : List Event :=
  if !refusal.isUserVisible || host.noWindow then []
  else if host.alertThrows then
    [.alert refusal.message, .log .error s!"alert failed: {refusal.message}"]
  else [.alert refusal.message]

end Host

namespace Editor

/-- Resizes the canvas. A gesture in progress keeps the size with which it began. -/
def resize (editor : Editor) (viewport : Viewport) : Editor :=
  { editor with viewport }

def setConfig (editor : Editor) (text : Text) : Editor × Bool × List Event :=
  match Request.config? text with
  | some config => ({ editor with config }, true, [])
  | none => (editor, false, [.log .warn "ignoring edit config:"])

/-- Carries out a mutation of the map text, and answers whether the host was handed a new one. -/
def commit (editor : Editor) (host : Host) (text : Text) (mutation : Mutation) : Bool × List Event :=
  let (result, events) := mutation.dispatch text editor.config
  let received := events.flatMap host.receive
  match result with
  | .ok committed => (committed, received)
  | .error refusal => (false, received ++ host.report refusal)

def apply (editor : Editor) (host : Host) (text request : Text) : Bool × List Event :=
  match Request.mutation request editor.viewport with
  | .ok mutation => editor.commit host text mutation
  | .error error => (false, [.log .warn error.message])

/-- The map text that a request would lead to, if it would change anything. -/
def preview (editor : Editor) (text request : Text) : Option Text × List Event :=
  match Request.mutation request editor.viewport with
  | .error _ => (none, [])
  | .ok mutation =>
    let events := (mutation.mismatches text editor.config).map Mismatch.event
    match mutation.apply text editor.config with
    | .ok (.changed changed) => (some changed, events)
    | .ok .unchanged | .error _ => (none, events)

/-- Begins a gesture with a tool on an element, and answers whether the element could be read. If not, no
gesture is in progress afterwards. -/
def begin (editor : Editor) (element : Text) (tool : Tool) : Editor × Bool × List Event :=
  match Request.element element with
  | .ok element => ({ editor with gesture := some { element, viewport := editor.viewport, tool } }, true, [])
  | .error error => ({ editor with gesture := none }, false, [.log .warn error.message])

def beginMove (editor : Editor) (element : Text) (origin : Position) : Editor × Bool × List Event :=
  editor.begin element (.move origin editor.config.clamp)

def beginLabel (editor : Editor) (element : Text) (origin : Vec) : Editor × Bool × List Event :=
  editor.begin element (.label origin)

def beginDraw (editor : Editor) (element : Text) : Editor × Bool × List Event :=
  editor.begin element (.draw editor.config.minRegionSize)

/-- Begins to drag a corner of the region between two positions. If there is no such corner, the gesture
that was in progress goes on. -/
def beginResize (editor : Editor) (element : Text) (first second : Position) (corner : Text) :
    Editor × Bool × List Event :=
  match Request.cornerOf corner with
  | .ok corner =>
    editor.begin element (.ofRegion first second corner editor.viewport editor.config)
  | .error error => (editor, false, [.log .warn error.message])

def feed (editor : Editor) (input : Input) : Editor × Option Mutation :=
  match editor.gesture with
  | some gesture =>
    let (gesture, mutation) := gesture.handle input
    ({ editor with gesture := some gesture }, mutation)
  | none => (editor, none)

def pointerDown (editor : Editor) (point : Point) (shift : Bool) : Editor :=
  (editor.feed (.pointer .down point shift)).1

def pointerMove (editor : Editor) (point : Point) (shift : Bool) : Editor :=
  (editor.feed (.pointer .move point shift)).1

/-- The pointer is released, which ends the gesture and carries out its mutation of the map text. -/
def pointerUp (editor : Editor) (host : Host) (text : Text) (point : Point) (shift : Bool) :
    Editor × Bool × List Event :=
  let ended := { editor with gesture := none }
  match (editor.feed (.pointer .up point shift)).2 with
  | some mutation => (ended, ended.commit host text mutation)
  | none => (ended, false, [])

def cancel (editor : Editor) : Editor :=
  { editor with gesture := none }

def gesturePreview (editor : Editor) : Text :=
  match editor.gesture.bind Gesture.preview? with
  | some preview => preview.text
  | none => []

end Editor

end WardleyMap
