import WardleyMap.Mutation.Basic

/-!
# Carrying out a mutation

A mutation is resolved to one edit of one line. An element is looked for on the line that the model
knows. The line of an evolved component may have moved since, so if the known line says nothing about
the component, the first line of the document that does is taken.
-/

namespace WardleyMap

inductive Outcome where
  | changed (text : Text)
  | unchanged
deriving DecidableEq, Repr

namespace Document

/-- The line that the model knows, if what the component evolves to is written there. -/
def trackedLine? (doc : Document) (name : Text) (line : Option Nat) : Option Nat :=
  line.filter fun n =>
    match doc.locate n (some name) .evolve with
    | .ok found => found.mismatch.isNone
    | .error _ => false

def trackedMismatch? (doc : Document) (name : Text) (line : Option Nat) : Option Mismatch :=
  line.bind fun n => (doc.locate n (some name) .evolve).toOption.bind Located.mismatch

/-- The line that says what the component evolves to. -/
def evolutionLine (doc : Document) (name : Text) (tracked : Option Nat) : Except Refusal Nat :=
  match doc.trackedLine? name tracked with
  | some line => .ok line
  | none =>
    match doc.findEvolution name with
    | .ok found => .ok found.line
    | .error _ => .error (.noEvolution name)

end Document

namespace Element

def ownLine (element : Element) : Except Refusal Nat :=
  match element.line with
  | some line => .ok line
  | none => .error .noLine

/-- The line that says what the component evolves to, if the model knows where any of its statements
is. -/
def evolutionLine (element : Element) (doc : Document) (tracked : Option Nat) : Except Refusal Nat :=
  if element.line.isNone ∧ tracked.isNone then .error .noLine
  else doc.evolutionLine element.name tracked

end Element

namespace Mutation

/-- The edit that the mutation comes to, and the line on which it is made. -/
def resolve (mutation : Mutation) (doc : Document) (config : Config) : Except Refusal (Nat × Edit) :=
  match mutation with
  | rename element newName =>
    match element.form with
    | .placed => element.ownLine.map (·, .rename element.kind element.name newName)
    | .evolved line => (element.evolutionLine doc line).map (·, .setOverride element.name newName)
  | move element position =>
    match element.form with
    | .placed => element.ownLine.map (·, .move element.kind element.name position)
    | .evolved line =>
      (element.evolutionLine doc line).map (·, .moveEvolution element.name position.maturity)
  | setLabel element offset =>
    match element.form with
    | .placed => element.ownLine.map (·, .setLabel element.kind element.name offset)
    | .evolved line =>
      (element.evolutionLine doc line).map (·, .setLabel .evolve element.name offset)
  | resizeRegion element bounds viewport =>
    match element.ownLine with
    | .error refusal => .error refusal
    | .ok line =>
      if bounds.isAtLeast config.minRegionSize then
        .ok (line, .resize element.kind (bounds.topLeft viewport) (bounds.bottomRight viewport))
      else .error .regionTooSmall
  | setRange element start stop => element.ownLine.map (·, .setRange element.name start stop)
  | setText line text =>
    match line with
    | some line => .ok (line, .setText text)
    | none => .error .noLine

def applyTo (mutation : Mutation) (doc : Document) (config : Config) : Except Refusal Document :=
  match mutation.resolve doc config with
  | .error refusal => .error refusal
  | .ok (line, edit) => (doc.edit config line edit).mapError .edit

def apply (mutation : Mutation) (text : Text) (config : Config) : Except Refusal Outcome :=
  let doc := Document.ofText text
  (mutation.applyTo doc config).map fun updated =>
    if updated = doc then .unchanged else .changed updated.toText

/-- The known line of an evolved element, which is looked at first. -/
def tracked? : Mutation → Option (Text × Option Nat)
  | rename element _ | move element _ | setLabel element _ =>
    match element.form with
    | .placed => none
    | .evolved line => some (element.name, line)
  | resizeRegion _ _ _ | setRange _ _ _ | setText _ _ => none

/-- The mismatches that are reported while the mutation is carried out, in their order: one on the known
line of an evolved element, and one on the line that is edited. -/
def mismatches (mutation : Mutation) (text : Text) (config : Config) : List Mismatch :=
  let doc := Document.ofText text
  let tracking := mutation.tracked?.bind fun (name, line) => doc.trackedMismatch? name line
  let editing :=
    match mutation.resolve doc config with
    | .ok (line, edit) => doc.editMismatch? line edit
    | .error _ => none
  tracking.toList ++ editing.toList

end Mutation

end WardleyMap
