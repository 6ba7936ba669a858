import WardleyMap.Statement.Kind
import WardleyMap.Text.Cursor

/-!
# Statements

A statement is what one line of the map says, together with the span of every part that an edit may
replace. A clause that a line does not hold in a readable form is absent; only a missing keyword keeps
a line from being a statement at all.
-/

namespace WardleyMap

structure NameToken where
  span : Span
  value : Text
deriving Repr, Inhabited

structure Number where
  span : Span
  value : Float
deriving Repr, Inhabited

/-- Numbers between square brackets. The span includes the brackets. -/
structure Bracket where
  span : Span
  values : List Number
deriving Repr, Inhabited

/-- The offset of a label. The span runs from the word `label` to the closing bracket. -/
structure LabelClause where
  span : Span
  dx : Number
  dy : Number
deriving Repr, Inhabited

structure OverrideClause where
  arrow : Span
  name : NameToken
deriving Repr, Inhabited

/-- A named element placed by a pair of coordinates: visibility and maturity, or, for a pipeline, the
ends of its range. -/
structure Placement where
  kind : Kind
  name : NameToken
  coordinates : Option Bracket
  label : Option LabelClause
deriving Repr, Inhabited

/-- The maturity that a component evolves to, and the name that it then has. -/
structure Evolution where
  name : NameToken
  override : Option OverrideClause
  maturity : Option Number
  label : Option LabelClause
deriving Repr, Inhabited

/-- A region of teams between two corners. `keywordEnd` is the column after the keyword. -/
structure Region where
  kind : Kind
  keywordEnd : Nat
  coordinates : Option Bracket
deriving Repr, Inhabited

/-- A numbered remark at one point or more. `coordinates` spans all points, and `text` runs to the end
of the line. -/
structure Annotation where
  number : Number
  coordinates : Option Span
  text : Option Span
deriving Repr, Inhabited

inductive Statement where
  | placement (p : Placement)
  | evolution (e : Evolution)
  | region (r : Region)
  | annotation (a : Annotation)
deriving Repr, Inhabited

def Placement.insertPoint (p : Placement) : Nat :=
  match p.coordinates with
  | some bracket => bracket.span.stop
  | none => p.name.span.stop

def Evolution.insertPoint (e : Evolution) : Nat :=
  match e.maturity, e.override with
  | some maturity, _ => maturity.span.stop
  | none, some override => override.name.span.stop
  | none, none => e.name.span.stop

def Region.insertPoint (r : Region) : Nat :=
  match r.coordinates with
  | some bracket => bracket.span.stop
  | none => r.keywordEnd

def Annotation.insertPoint (a : Annotation) : Nat :=
  match a.coordinates with
  | some span => span.stop
  | none => a.number.span.stop

namespace Statement

def kind : Statement → Kind
  | placement p => p.kind
  | evolution _ => .evolve
  | region r => r.kind
  | annotation _ => Kind.annotation

def name? : Statement → Option NameToken
  | placement p => some p.name
  | evolution e => some e.name
  | region _ => none
  | annotation _ => none

/-- The column where a clause that is missing after the coordinates is put. -/
def insertPoint : Statement → Nat
  | placement p => p.insertPoint
  | evolution e => e.insertPoint
  | region r => r.insertPoint
  | annotation a => a.insertPoint

end Statement

end WardleyMap
