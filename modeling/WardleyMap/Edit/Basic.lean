import WardleyMap.Config
import WardleyMap.Edit.Plan
import WardleyMap.Locate
import WardleyMap.Position

/-!
# Edits

An edit changes one statement, on one line, and leaves every other line as it is. The edit names the kind
of statement it expects on the line; whether the kind can be edited so is decided before the line is
looked at.
-/

namespace WardleyMap

/-- A change of one statement. Where an edit has a `name`, it is the one that the statement is expected
to go by. -/
inductive Edit where
  | rename (kind : Kind) (name newName : Text)
  /-- Gives an evolved component a name of its own. -/
  | setOverride (name newName : Text)
  | move (kind : Kind) (name : Text) (position : Position)
  | moveEvolution (name : Text) (maturity : Float)
  /-- Gives a pipeline a new range, in either order. -/
  | setRange (name : Text) (start stop : Float)
  | setLabel (kind : Kind) (name : Text) (offset : Vec)
  /-- Gives a region two new corners, in either order. -/
  | resize (kind : Kind) (first second : Position)
  | setText (text : Text)
deriving Repr

/-- What cannot be done to statements of every kind. -/
inductive Operation where
  | rename
  | move
  | label
  | resize
deriving DecidableEq, Repr

def Operation.verb : Operation → String
  | rename => "rename"
  | move => "move"
  | label => "label"
  | resize => "resize"

inductive EditError where
  /-- The line does not hold the statement. -/
  | notFound (cause : LocateError)
  /-- The statement lacks the coordinates that the edit has to keep to. -/
  | noCoordinates (line : Nat) (kind : Kind)
  /-- The operation does not apply to the kind. -/
  | unsupported (kind : Kind) (operation : Operation)
deriving DecidableEq, Repr

def EditError.message : EditError → String
  | notFound cause => s!"statement not found: {cause.message}"
  | noCoordinates line kind => s!"line {line}: `{kind.name}` statement has no coordinates"
  | unsupported kind operation => s!"cannot {operation.verb} a `{kind.name}` statement"

namespace Edit

def kind : Edit → Kind
  | rename kind _ _ | move kind _ _ | setLabel kind _ _ | resize kind _ _ => kind
  | setOverride _ _ | moveEvolution _ _ => .evolve
  | setRange _ _ _ => .pipeline
  | setText _ => Kind.annotation

def expected : Edit → Option Text
  | rename _ name _ | move _ name _ | setLabel _ name _ => some name
  | setOverride name _ | moveEvolution name _ | setRange name _ _ => some name
  | resize _ _ _ | setText _ => none

def unsupported? : Edit → Option Operation
  | rename kind _ _ => if kind.isPlacement then none else some .rename
  | move kind _ _ => if kind.isMovable then none else some .move
  | setLabel kind _ _ => if kind.isLabelled then none else some .label
  | resize kind _ _ => if kind.isRegion then none else some .resize
  | setOverride _ _ | moveEvolution _ _ | setRange _ _ _ | setText _ => none

/-- The replacements that the edit makes in the statement on the line with the content `text`, or
nothing if the statement lacks the coordinates it needs. -/
def plan? (edit : Edit) (precision : Nat) (text : Text) (statement : Statement) :
    Option (List Replacement) :=
  match edit, statement with
  | rename _ _ newName, .placement p => some (p.rename newName)
  | setOverride _ newName, .evolution e => some (e.setOverride newName)
  | move _ _ position, .placement p =>
    some (p.setCoordinates precision position.visibility position.maturity)
  | moveEvolution _ maturity, .evolution e => some (e.setMaturity precision maturity)
  | setRange _ start stop, .placement p =>
    some (if start ≤ stop then p.setCoordinates precision start stop
      else p.setCoordinates precision stop start)
  | setLabel _ _ offset, .placement p => p.setLabel? precision offset.dx offset.dy
  | setLabel _ _ offset, .evolution e => some (e.setLabel precision offset.dx offset.dy)
  | resize _ first second, .region r =>
    some (r.setEdges precision (greater first.visibility second.visibility)
      (lesser first.maturity second.maturity) (lesser first.visibility second.visibility)
      (greater first.maturity second.maturity))
  | setText newText, Statement.annotation a => a.setText? text newText
  | _, _ => some []

end Edit

namespace Document

def edit (doc : Document) (config : Config) (line : Nat) (edit : Edit) : Except EditError Document :=
  match edit.unsupported? with
  | some operation => .error (.unsupported edit.kind operation)
  | none =>
    match doc.locate line edit.expected edit.kind with
    | .error cause => .error (.notFound cause)
    | .ok found =>
      match edit.plan? config.precision found.text found.statement with
      | none => .error (.noCoordinates line edit.kind)
      | some replacements =>
        .ok ((doc.withLine? line (Replacement.applyAll replacements found.text)).getD doc)

def editMismatch? (doc : Document) (line : Nat) (edit : Edit) : Option Mismatch :=
  match edit.unsupported? with
  | some _ => none
  | none => (doc.locate line edit.expected edit.kind).toOption.bind Located.mismatch

end Document

end WardleyMap
