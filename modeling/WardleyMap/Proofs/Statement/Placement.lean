import WardleyMap.Proofs.Statement.NameToken
import WardleyMap.Proofs.Statement.Token

/-!
# The parts of a placement

A placement is read from left to right: the opening, the name, the coordinates, and the first label
behind them. Here the reading is stated for a line given in these parts. The label is the one part
that is searched for rather than read in place, and it does not matter at which column the search
starts, nor what the coordinates were.
-/

namespace WardleyMap

def LabelClause.values (label : LabelClause) : Float × Float :=
  (label.dx.value, label.dy.value)

def Bracket.numbers (bracket : Bracket) : List Float :=
  bracket.values.map Number.value

namespace Cursor

theorem label?_eq_none_of_col {col : Nat} {s : Text} (h : (⟨col, s⟩ : Cursor).label? = none)
    (col' : Nat) : (⟨col', s⟩ : Cursor).label? = none := by
  cases hlabel : (⟨col', s⟩ : Cursor).label? with
  | none => rfl
  | some clause =>
      obtain ⟨before, gap, f, g, rest, hgap, rfl, -, hbefore⟩ := exists_beforeLabel hlabel
      rw [hbefore.found gap f g rest col hgap] at h
      simp at h

/-- The numbers of the label do not depend on the column. -/
theorem map_values_label? (col col' : Nat) (s : Text) :
    ((⟨col, s⟩ : Cursor).label?).map LabelClause.values
      = ((⟨col', s⟩ : Cursor).label?).map LabelClause.values := by
  cases hlabel : (⟨col, s⟩ : Cursor).label? with
  | none => rw [label?_eq_none_of_col hlabel col']
  | some clause =>
      obtain ⟨before, gap, f, g, rest, hgap, rfl, rfl, hbefore⟩ := exists_beforeLabel hlabel
      rw [hbefore.found gap f g rest col' hgap]
      rfl

end Cursor

theorem Statement.ofLine?_placement {kind : Kind} (h : kind.isPlacement = true) (line : Text) :
    Statement.ofLine? kind line = (Placement.ofLine? kind line).map .placement := by
  cases kind with
  | component | note | anchor | pipeline => rfl
  | evolve | pioneers | settlers | townPlanners | annotation => simp [Kind.isPlacement] at h

namespace Placement

variable {kind : Kind}

theorem ofLine?_of_opens {line lead gap : Text} {c : Cursor} (h : kind.Opens line lead gap c) :
    ofLine? kind line = some (ofCursor kind c) :=
  h.map_open? (ofCursor kind)

theorem exists_opens_of_ofLine? {line : Text} {p : Placement} (h : ofLine? kind line = some p) :
    ∃ lead gap c, kind.Opens line lead gap c ∧ p = ofCursor kind c := by
  obtain ⟨c, hopen, rfl⟩ := Option.map_eq_some_iff.mp h
  obtain ⟨lead, gap, hopens, -⟩ := Kind.exists_opens hopen
  exact ⟨lead, gap, c.skipSpaces, hopens, rfl⟩

/-! ### A placement with coordinates -/

/-- The parts of a line that holds a placement with coordinates: the spaces around the keyword, the blanks
before the name, the written name and the name it stands for, the spaces before the coordinates, the
two fields, and what follows them. -/
structure Layout where
  lead : Text
  gap : Text
  before : Text
  written : Text
  value : Text
  inner : Text
  first : Field
  second : Field
  tail : Text

namespace Layout

def opening (kind : Kind) (l : Layout) : Text :=
  l.lead ++ (kind.keyword ++ l.gap)

def coordinates (l : Layout) : Text :=
  Field.bracketed [l.first, l.second]

def behind (l : Layout) : Text :=
  l.inner ++ (l.coordinates ++ l.tail)

def line (kind : Kind) (l : Layout) : Text :=
  l.opening kind ++ (l.before ++ (l.written ++ l.behind))

def nameStart (kind : Kind) (l : Layout) : Nat :=
  (l.opening kind).length + l.before.length

def nameStop (kind : Kind) (l : Layout) : Nat :=
  l.nameStart kind + l.written.length

def bracketStart (kind : Kind) (l : Layout) : Nat :=
  l.nameStop kind + l.inner.length

def afterBracket (kind : Kind) (l : Layout) : Cursor :=
  ⟨l.bracketStart kind + l.coordinates.length, l.tail⟩

def placement (kind : Kind) (l : Layout) : Placement :=
  ⟨kind, ⟨⟨l.nameStart kind, l.nameStop kind⟩, l.value⟩,
    some (Field.bracket (l.bracketStart kind) [l.first, l.second]), (l.afterBracket kind).label?⟩

def front (kind : Kind) (l : Layout) : Text :=
  l.opening kind ++ l.before

theorem line_eq (kind : Kind) (l : Layout) :
    l.line kind = l.front kind ++ (l.written ++ l.behind) :=
  (List.append_assoc ..).symm

theorem length_front (kind : Kind) (l : Layout) : (l.front kind).length = l.nameStart kind :=
  List.length_append

theorem take_nameStart (kind : Kind) (l : Layout) :
    (l.line kind).take (l.nameStart kind) = l.front kind := by
  rw [line_eq, ← length_front, List.take_left]

theorem drop_nameStop (kind : Kind) (l : Layout) :
    (l.line kind).drop (l.nameStop kind) = l.behind := by
  rw [line_eq, nameStop, ← length_front, ← List.length_append, ← List.append_assoc, List.drop_left]

def upToFirst (kind : Kind) (l : Layout) : Text :=
  l.front kind ++ (l.written ++ (l.inner ++ ['[']))

theorem line_eq_upToFirst (kind : Kind) (l : Layout) : l.line kind
    = l.upToFirst kind ++ (Field.join [l.first, l.second] ++ (']' :: l.tail)) := by
  rw [line_eq, upToFirst, behind, coordinates, Field.bracketed]
  simp only [List.append_assoc, List.cons_append, List.nil_append]

theorem length_upToFirst (kind : Kind) (l : Layout) :
    l.bracketStart kind + 1 = (l.upToFirst kind).length := by
  rw [upToFirst, bracketStart, nameStop, ← length_front]
  simp only [List.length_append, List.length_singleton]
  omega

def upToTail (kind : Kind) (l : Layout) : Text :=
  l.front kind ++ (l.written ++ (l.inner ++ l.coordinates))

theorem line_eq_upToTail (kind : Kind) (l : Layout) : l.line kind = l.upToTail kind ++ l.tail := by
  rw [line_eq, upToTail, behind]
  simp only [List.append_assoc]

theorem length_upToTail (kind : Kind) (l : Layout) :
    (l.afterBracket kind).col = (l.upToTail kind).length := by
  rw [upToTail, afterBracket, bracketStart, nameStop, ← length_front]
  simp only [List.length_append]
  omega

/-- The line that consists of the parts is read as these parts. What follows the bracket that opens the
coordinates matters to the name only, which must not become a quoted one. -/
structure Reads (kind : Kind) (l : Layout) : Prop where
  isSpace_lead : ∀ ch ∈ l.lead, isSpace ch = true
  isSpace_gap : ∀ ch ∈ l.gap, isSpace ch = true
  isSpace_inner : ∀ ch ∈ l.inner, isSpace ch = true
  head : ∀ ch ∈ (l.before ++ (l.written ++ (l.inner ++ ['[']))).head?, isSpace ch = false
  boundary : l.gap ≠ [] ∨
    ∀ ch ∈ (l.before ++ (l.written ++ (l.inner ++ ['[']))).head?, isBlank ch = true ∨ ch = '['
  name : Written l.before l.written l.behind l.value

theorem head?_line (l : Layout) : (l.before ++ (l.written ++ l.behind)).head?
    = (l.before ++ (l.written ++ (l.inner ++ ['[']))).head? := by
  rw [behind, coordinates, Field.bracketed]
  cases l.before with
  | cons ch before => rfl
  | nil =>
      cases l.written with
      | cons ch written => rfl
      | nil =>
          cases l.inner with
          | cons ch inner => rfl
          | nil => rfl

/-- A line that is given by its parts is read as the placement of these parts. -/
theorem Reads.ofLine?_eq {l : Layout} (h : l.Reads kind) :
    ofLine? kind (l.line kind) = some (l.placement kind) := by
  have hopens : kind.Opens (l.line kind) l.lead l.gap
      ⟨(l.opening kind).length, l.before ++ (l.written ++ l.behind)⟩ := by
    refine ⟨Cursor.passes_ofLine_iff.mpr ⟨rfl, rfl⟩, h.isSpace_lead, h.isSpace_gap, ?_, ?_⟩
    · rw [head?_line]
      exact h.head
    · rw [head?_line]
      exact h.boundary
  have hstop : (⟨(l.opening kind).length, l.before ++ (l.written ++ l.behind)⟩ : Cursor).Passes
      (l.before ++ l.written) ⟨l.nameStop kind, l.behind⟩ := by
    refine ⟨(List.append_assoc ..).symm, ?_⟩
    rw [List.length_append, ← Nat.add_assoc]
    rfl
  have hinner : (⟨l.nameStop kind, l.behind⟩ : Cursor).skipSpaces
      = ⟨l.bracketStart kind, l.coordinates ++ l.tail⟩ := by
    refine Cursor.skipSpaces_eq ⟨rfl, rfl⟩ h.isSpace_inner ?_
    intro ch hch
    obtain rfl : '[' = ch := by simpa [coordinates, Field.bracketed] using hch
    rfl
  have hbracket : (⟨l.bracketStart kind, l.coordinates ++ l.tail⟩ : Cursor).bracket? 2
      = some (Field.bracket (l.bracketStart kind) [l.first, l.second], l.afterBracket kind) :=
    @Cursor.bracket?_bracketed [l.first, l.second] 1 rfl _ l.tail
  rw [ofLine?_of_opens hopens]
  unfold ofCursor
  simp only [h.name.nameAt_eq hstop rfl, hstop.seek_eq, hinner, hbracket]
  rfl

/-- Behind the name a line may change as long as the name stays what it is. -/
theorem Reads.of_behind {l : Layout} (h : l.Reads kind) (first second : Field) (tail : Text)
    (hopen : Name.quotedLength? (l.before ++ (l.written ++ l.behind)) = none →
      Name.quotedLength? (l.before ++ (l.written ++
        (l.inner ++ (Field.bracketed [first, second] ++ tail)))) = none) :
    ({ l with first, second, tail } : Layout).Reads kind := by
  refine ⟨h.isSpace_lead, h.isSpace_gap, h.isSpace_inner, h.head, h.boundary, ?_⟩
  refine h.name.of_rest ?_ ?_ ?_ hopen
  · exact Text.isAllBlank_iff.mpr fun ch hch => isBlank_of_isSpace (h.isSpace_inner ch hch)
  · intro hmem
    exact absurd (h.isSpace_inner _ hmem) (by decide)
  · intro ch hch
    simpa [coordinates, Field.bracketed] using hch.symm

end Layout

/-- A line that is read as a placement with coordinates consists of such parts. -/
theorem exists_layout {line : Text} {p : Placement} (hp : ofLine? kind line = some p)
    (hsome : p.coordinates.isSome = true) :
    ∃ l : Layout, l.Reads kind ∧ line = l.line kind ∧ p = l.placement kind := by
  obtain ⟨lead, gap, c, hopens, rfl⟩ := exists_opens_of_ofLine? hp
  obtain ⟨before, written, rest, value, hrest, hname⟩ := exists_written c.rest
  have hstop : c.Passes (before ++ written) ⟨c.col + (before ++ written).length, rest⟩ :=
    ⟨by rw [hrest, List.append_assoc], rfl⟩
  obtain ⟨inner, hinner, hpassInner, -⟩ :=
    Cursor.exists_skipSpaces ⟨c.col + (before ++ written).length, rest⟩
  cases hread : (⟨c.col + (before ++ written).length, rest⟩ : Cursor).skipSpaces.bracket? 2 with
  | none =>
      unfold ofCursor at hsome
      simp only [hname.nameAt_eq hstop rfl, hstop.seek_eq, hread] at hsome
      simp at hsome
  | some found =>
      obtain ⟨bracket, after⟩ := found
      obtain ⟨fs, hlength, hpassBracket, -⟩ := Cursor.bracket?_eq_some_iff.mp hread
      obtain ⟨f, g, rfl⟩ := List.length_eq_two.mp hlength
      obtain ⟨hline, -⟩ := Cursor.passes_ofLine_iff.mp hopens.passes
      have hbehind : rest = inner ++ (Field.bracketed [f, g] ++ after.rest) := by
        rw [← hpassBracket.rest]
        exact hpassInner.rest
      have hreads : (⟨lead, gap, before, written, value, inner, f, g, after.rest⟩ : Layout).Reads
          kind := by
        have hhead := Layout.head?_line ⟨lead, gap, before, written, value, inner, f, g, after.rest⟩
        change (before ++ (written ++ (inner ++ (Field.bracketed [f, g] ++ after.rest)))).head? = _
          at hhead
        rw [← hbehind, ← hrest] at hhead
        refine ⟨hopens.isSpace_lead, hopens.isSpace_gap, hinner, hhead ▸ hopens.head,
          hhead ▸ hopens.boundary, ?_⟩
        change Written before written (inner ++ (Field.bracketed [f, g] ++ after.rest)) value
        rwa [← hbehind]
      have hlayout : line = Layout.line kind ⟨lead, gap, before, written, value, inner, f, g,
          after.rest⟩ := by
        rw [hline, hrest, hbehind]
        rfl
      refine ⟨_, hreads, hlayout, ?_⟩
      rw [hlayout] at hp
      exact Option.some.inj (hp.symm.trans hreads.ofLine?_eq)

end Placement

end WardleyMap
