import WardleyMap.Editor.Basic

/-!
# Calls

All that the host can ask of the editor, as data, so that a session is a list of calls. The map text is an
argument of the calls that read it; no call but a request and the release of the pointer can hand a new one
to the host.
-/

namespace WardleyMap

/-- What the host asks of the editor. -/
inductive Call where
  | resize (viewport : Viewport)
  | setConfig (config : Text)
  | apply (text request : Text)
  | preview (text request : Text)
  | beginMove (element : Text) (origin : Position)
  | beginLabel (element : Text) (origin : Vec)
  | beginDraw (element : Text)
  | beginResize (element : Text) (first second : Position) (corner : Text)
  | pointerDown (point : Point) (shift : Bool)
  | pointerMove (point : Point) (shift : Bool)
  | pointerUp (text : Text) (point : Point) (shift : Bool)
  | cancel
deriving Repr

inductive Answer where
  | nothing
  | done (succeeded : Bool)
  | text (text : Option Text)
deriving DecidableEq, Repr

namespace Editor

/-- The editor after a call, the answer to the call, and its events. -/
def step (editor : Editor) (host : Host) : Call → Editor × Answer × List Event
  | .resize viewport => (editor.resize viewport, .nothing, [])
  | .setConfig config => answered (editor.setConfig config)
  | .apply text request => answered (editor, editor.apply host text request)
  | .preview text request =>
    let (changed, events) := editor.preview text request
    (editor, .text changed, events)
  | .beginMove element origin => answered (editor.beginMove element origin)
  | .beginLabel element origin => answered (editor.beginLabel element origin)
  | .beginDraw element => answered (editor.beginDraw element)
  | .beginResize element first second corner =>
    answered (editor.beginResize element first second corner)
  | .pointerDown point shift => (editor.pointerDown point shift, .nothing, [])
  | .pointerMove point shift => (editor.pointerMove point shift, .nothing, [])
  | .pointerUp text point shift => answered (editor.pointerUp host text point shift)
  | .cancel => (editor.cancel, .nothing, [])
where
  /-- A call that answers whether it did what was asked. -/
  answered : Editor × Bool × List Event → Editor × Answer × List Event
    | (editor, succeeded, events) => (editor, .done succeeded, events)

def run (editor : Editor) : List (Host × Call) → Editor
  | [] => editor
  | (host, call) :: calls => (editor.step host call).1.run calls

end Editor

end WardleyMap
