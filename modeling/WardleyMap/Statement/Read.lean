import WardleyMap.Statement.Clause

/-!
# Reading a line

How a line of each kind is read, once its keyword is found. A bare name of a placement ends at the
first bracket, whatever words it holds. The parts of an `evolve` line are found from the right: the
label first, then, in what stands before it, the arrow or the last number.
-/

namespace WardleyMap

def Kind.open? (kind : Kind) (line : Text) : Option Cursor :=
  (Cursor.ofLine line).skipSpaces.keyword? kind.keyword

namespace Placement

/-- The name that stands here: quoted and closed, or else all that precedes the first bracket. -/
def nameAt (c : Cursor) : NameToken :=
  match c.quotedName? with
  | some name => name
  | none => c.bareName (c.col + (c.rest.takeWhile (· != '[')).length)

def ofCursor (kind : Kind) (c : Cursor) : Placement :=
  let name := nameAt c
  let afterName := c.seek name.span.stop
  let coordinates := afterName.skipSpaces.bracket? 2
  let rest := match coordinates with
    | some (_, c) => c
    | none => afterName
  ⟨kind, name, coordinates.map Prod.fst, rest.label?⟩

def ofLine? (kind : Kind) (line : Text) : Option Placement :=
  (kind.open? line).map fun c => ofCursor kind c.skipSpaces

end Placement

namespace Evolution

/-- The first of two names on an `evolve` line: its token, the maturity if that had to be found to tell
where the name ends, and the place after both. -/
structure Head where
  name : NameToken
  maturity : Option Number
  rest : Cursor

/-- A bare name followed by the last number, or by nothing. -/
def Head.bare (c : Cursor) : Head :=
  match c.lastNumber? with
  | some number => ⟨c.bareName number.span.start, some number, c.seek number.span.start⟩
  | none => ⟨c.bareName c.lineEnd, none, c.seek c.lineEnd⟩

/-- Reads the name of the component: quoted and closed, or up to the first arrow, or up to the last
number. -/
def Head.ofCursor (c : Cursor) : Head :=
  match c.quotedName? with
  | some name => ⟨name, none, c.seek name.span.stop⟩
  | none =>
    match Text.find? c.rest Name.arrow with
    | some i => ⟨c.bareName (c.col + i), none, c.advance i⟩
    | none => .bare c

def Head.ofOverride (c : Cursor) : Head :=
  match c.quotedName? with
  | some name => ⟨name, none, c.seek name.span.stop⟩
  | none =>
    let head := Head.bare c
    { head with rest := c.seek head.name.span.stop }

def maturityAt (c : Cursor) : Option Number :=
  match c.skipSpaces.number? with
  | some (number, after) => if after.rest.head?.all isBlank then some number else none
  | none => none

/-- Reads the names and the maturity from a text without the label. -/
def ofBody (c : Cursor) (label : Option LabelClause) : Evolution :=
  let base := Head.ofCursor c
  match base.maturity with
  | some number => ⟨base.name, none, some number, label⟩
  | none =>
    let arrow := base.rest.skipSpaces
    match arrow.acceptText? Name.arrow with
    | none => ⟨base.name, none, maturityAt base.rest, label⟩
    | some c =>
      let head := Head.ofOverride c.skipSpaces
      ⟨base.name, some ⟨⟨arrow.col, c.col⟩, head.name⟩, head.maturity <|> maturityAt head.rest, label⟩

def ofCursor (c : Cursor) : Evolution :=
  let label := c.label?
  ofBody (match label with | some clause => c.clip clause.span.start | none => c) label

def ofLine? (line : Text) : Option Evolution :=
  (Kind.evolve.open? line).map fun c => ofCursor c.skipSpaces

end Evolution

def Region.ofLine? (kind : Kind) (line : Text) : Option Region :=
  (kind.open? line).map fun c => ⟨kind, c.col, (c.skipSpaces.bracket? 4).map Prod.fst⟩

namespace Annotation

/-- The place after the points that stand here, at most `bound` of them, and the bracket that closes
their group. -/
def groupEnd? : (bound : Nat) → Cursor → Option Cursor
  | 0, _ => none
  | bound + 1, c => do
    let (_, c) ← c.bracket? 2
    match c.skipSpaces.accept? ',' with
    | some c => groupEnd? bound c.skipSpaces
    | none => c.skipSpaces.accept? ']'

/-- The span of the point, or of the group of points, that stands here. A group has fewer points than
characters. -/
def points? (c : Cursor) : Option Span := do
  let inner ← c.accept? '['
  if inner.skipSpaces.rest.head? = some '[' then
    let after ← groupEnd? inner.skipSpaces.rest.length inner.skipSpaces
    return ⟨c.col, after.col⟩
  else
    let (point, _) ← c.bracket? 2
    return point.span

def textAt (c : Cursor) : Option Span :=
  if Text.isAllBlank c.rest then none else some ⟨c.col + Text.indent c.rest, c.lineEnd⟩

def ofCursor? (c : Cursor) : Option Annotation :=
  c.number?.map fun (number, c) =>
    let coordinates := points? c.skipSpaces
    ⟨number, coordinates, coordinates.bind fun span => textAt (c.seek span.stop)⟩

def ofLine? (line : Text) : Option Annotation :=
  (Kind.open? Kind.annotation line).bind fun c => ofCursor? c.skipSpaces

end Annotation

def Statement.ofLine? (kind : Kind) (line : Text) : Option Statement :=
  match kind with
  | .component | .note | .anchor | .pipeline => (Placement.ofLine? kind line).map .placement
  | .evolve => (Evolution.ofLine? line).map .evolution
  | .pioneers | .settlers | .townPlanners => (Region.ofLine? kind line).map .region
  | Kind.annotation => Option.map Statement.annotation <| Annotation.ofLine? line

end WardleyMap
