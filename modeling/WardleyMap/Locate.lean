import WardleyMap.Document
import WardleyMap.Statement.Read

/-!
# Locating a statement

The visual model remembers on which line each of its elements is written. The line number is the key:
if the name on the line has drifted from the one that the model holds, the statement is found all the
same and the mismatch is reported with it. A statement can also be looked for by its name.
-/

namespace WardleyMap

inductive LocateError where
  /-- There is no such line, or it does not open with the keyword of the kind. -/
  | notOnLine (line : Nat) (kind : Kind)
  /-- No line holds a statement of the kind with the name. -/
  | nowhere (kind : Kind) (name : Text)
deriving DecidableEq, Repr

def LocateError.message : LocateError → String
  | notOnLine line kind => s!"line {line} does not hold a `{kind.name}` statement"
  | nowhere kind name => s!"no `{kind.name}` statement named \"{String.ofList name}\""

/-- The name on a line is not the one that was expected there. -/
structure Mismatch where
  line : Nat
  kind : Kind
  expected : Text
  found : Text
deriving DecidableEq, Repr

def Mismatch.message (m : Mismatch) : String :=
  s!"line {m.line}: expected {m.kind.name} \"{String.ofList m.expected}\" but found " ++
    s!"\"{String.ofList m.found}\"; editing by line number"

/-- A statement and the line that holds it. The spans of the statement refer to `text`, the content of
the line. -/
structure Located where
  line : Nat
  text : Text
  statement : Statement
  mismatch : Option Mismatch
deriving Repr

/-- The statement goes by the name, or has none. An evolved component goes by both of its names. -/
def Statement.goesBy (statement : Statement) (name : Text) : Bool :=
  match statement with
  | .evolution e => Name.agrees e.name.value name || e.override.any (Name.agrees ·.name.value name)
  | .placement p => Name.agrees p.name.value name
  | .region _ | Statement.annotation _ => true

def Statement.mismatch? (statement : Statement) (line : Nat) (expected : Text) : Option Mismatch :=
  if statement.goesBy expected then none
  else some ⟨line, statement.kind, expected, (statement.name?.map NameToken.value).getD []⟩

namespace Document

def locate (doc : Document) (line : Nat) (expected : Option Text) (kind : Kind) :
    Except LocateError Located :=
  match doc.line? line with
  | none => .error (.notOnLine line kind)
  | some text =>
    match Statement.ofLine? kind text with
    | none => .error (.notOnLine line kind)
    | some statement => .ok ⟨line, text, statement, expected.bind (statement.mismatch? line)⟩

def findStatement (doc : Document) (kind : Kind) (name : Text) : Except LocateError Located :=
  let candidates := doc.numbered.filterMap fun (line, text) =>
    (Statement.ofLine? kind text).map fun statement => (⟨line, text, statement, none⟩ : Located)
  match candidates.find? (·.statement.goesBy name) with
  | some located => .ok located
  | none => .error (.nowhere kind name)

def findEvolution (doc : Document) (name : Text) : Except LocateError Located :=
  doc.findStatement .evolve name

end Document

end WardleyMap
