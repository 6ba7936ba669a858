import WardleyMap.Gesture.Tool
import WardleyMap.Request.Fields

/-!
# Requests

The host describes elements, mutations and the configuration in JSON. A text is decoded in full before the
kind of an element is looked up, so a malformed text is reported as such whatever kind it names.
-/

namespace WardleyMap

inductive RequestError where
  | malformed
  | unknownKind (word : Text)
  | unknownCorner (name : Text)
deriving DecidableEq, Repr

/-- The wording of the error. A colon without a cause ends the first. -/
def RequestError.message : RequestError → String
  | malformed => "malformed request:"
  | unknownKind word => s!"unknown statement kind \"{String.ofList word}\""
  | unknownCorner name => s!"unknown corner \"{String.ofList name}\""

namespace Request

def maxDepth : Nat := 127

/-- An element whose kind has not been looked up. -/
structure RawElement where
  kind : Text
  name : Text
  line : Option Nat
  evolved : Bool
  evolveLine : Option Nat
deriving Repr

def RawElement.ofJson? (json : Json) : Option RawElement := do
  let names := ["kind", "name", "line", "evolved", "evolveLine"].map String.toList
  match ← json.fields? names with
  | [kind, name, line, evolved, evolveLine] =>
    return ⟨← Json.required? Json.text? kind, ← Json.optional? Json.text? [] name,
      ← Json.optional? Json.optionalNat? none line, ← Json.optional? Json.bool? false evolved,
      ← Json.optional? Json.optionalNat? none evolveLine⟩
  | _ => none

def kindOf (word : Text) : Except RequestError Kind :=
  match Kind.ofKeyword? word with
  | some kind => .ok kind
  | none => .error (.unknownKind word)

def cornerOf (name : Text) : Except RequestError Corner :=
  match Corner.ofName? name with
  | some corner => .ok corner
  | none => .error (.unknownCorner name)

/-- The element, once its kind is known. The line of its evolution counts for an evolved element only. -/
def RawElement.toElement (raw : RawElement) : Except RequestError Element :=
  (kindOf raw.kind).map fun kind =>
    ⟨kind, raw.name, raw.line, if raw.evolved then .evolved raw.evolveLine else .placed⟩

/-- A rectangle given by its upper left corner and its size. -/
def boundsOfJson? (json : Json) : Option Rect := do
  match ← json.fields? (["x", "y", "width", "height"].map String.toList) with
  | [x, y, width, height] =>
    let x ← Json.required? Json.float? x
    let y ← Json.required? Json.float? y
    return ⟨x, y, x + (← Json.required? Json.float? width), y + (← Json.required? Json.float? height)⟩
  | _ => none

/-- The tag of a mutation and the record that holds its fields. The tag is the member `op` of an object
or the first item of an array. -/
def tagged? : Json → Option (Text × Json)
  | .object members => do
    let tag ← Json.member? members ['o', 'p']
    return (← tag.bind Json.text?, .object (members.filter (·.1 ≠ some ['o', 'p'])))
  | .array (tag :: items) => tag.text?.map (·, .array items)
  | _ => none

def mutationOfElement? (names : List String) (body : Json)
    (make : List (Option Json) → Option (Element → Mutation)) :
    Option (Except RequestError Mutation) := do
  match ← body.fields? ("element" :: names |>.map String.toList) with
  | element :: rest =>
    let raw ← Json.required? RawElement.ofJson? element
    let make ← make rest
    return raw.toElement.map make
  | [] => none

/-- Reads a mutation; the bounds of a region refer to a canvas of the given size. -/
def mutationOfJson? (json : Json) (viewport : Viewport) : Option (Except RequestError Mutation) := do
  let (tag, body) ← tagged? json
  match String.ofList tag with
  | "rename" =>
    mutationOfElement? ["newName"] body fun
      | [newName] => do
        let newName ← Json.required? Json.text? newName
        return (Mutation.rename · newName)
      | _ => none
  | "move" =>
    mutationOfElement? ["maturity", "visibility"] body fun
      | [maturity, visibility] => do
        let maturity ← Json.required? Json.float? maturity
        let visibility ← Json.required? Json.float? visibility
        return (Mutation.move · ⟨maturity, visibility⟩)
      | _ => none
  | "setLabel" =>
    mutationOfElement? ["dx", "dy"] body fun
      | [dx, dy] => do
        let dx ← Json.required? Json.float? dx
        let dy ← Json.required? Json.float? dy
        return (Mutation.setLabel · ⟨dx, dy⟩)
      | _ => none
  | "resizeRegion" =>
    mutationOfElement? ["bounds"] body fun
      | [bounds] => do
        let bounds ← Json.required? boundsOfJson? bounds
        return (Mutation.resizeRegion · bounds viewport)
      | _ => none
  | "setPipelineRange" =>
    mutationOfElement? ["start", "end"] body fun
      | [start, stop] => do
        let start ← Json.required? Json.float? start
        let stop ← Json.required? Json.float? stop
        return (Mutation.setRange · start stop)
      | _ => none
  | "setAnnotationText" =>
    match ← body.fields? (["line", "text"].map String.toList) with
    | [line, text] =>
      let line ← Json.optional? Json.optionalNat? none line
      let text ← Json.optional? Json.text? [] text
      return .ok (.setText line text)
    | _ => none
  | _ => none

def element (text : Text) : Except RequestError Element :=
  match (Json.ofText? text).bind RawElement.ofJson? with
  | some raw => raw.toElement
  | none => .error .malformed

/-- Decodes a mutation. The whole of its text has to be sound and not nested too deeply, also where no
field is read. -/
def mutation (text : Text) (viewport : Viewport) : Except RequestError Mutation :=
  let json := (Json.ofText? text).filter fun json => json.isSound && json.depth ≤ maxDepth
  (json.bind (mutationOfJson? · viewport)).getD (.error .malformed)

/-- Decodes a configuration, in which missing fields have their usual values. -/
def config? (text : Text) : Option Config := do
  let json ← Json.ofText? text
  let usual : Config := {}
  match ← json.fields? (["precision", "minRegionSize", "clamp"].map String.toList) with
  | [precision, minRegionSize, clamp] =>
    return ⟨← Json.optional? Json.nat? usual.precision precision,
      ← Json.optional? Json.float? usual.minRegionSize minRegionSize,
      ← Json.optional? Json.bool? usual.clamp clamp⟩
  | _ => none

end Request

end WardleyMap
