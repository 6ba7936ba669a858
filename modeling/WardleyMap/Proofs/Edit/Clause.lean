import WardleyMap.Proofs.Edit.Basic
import WardleyMap.Proofs.Edit.Numbers
import WardleyMap.Proofs.Statement.Placement

/-!
# Writing the numbers of a clause

Coordinates and labels are clauses that consist of numbers, and moving, resizing and shifting a label all do
the same to one of them: they write its numbers anew where it can be read, and put a new clause into
the line where it cannot. `Statement.write` is that edit and `Rewrites` is what is expected of it. That
a second edit finds nothing to do follows from the first one showing its numbers, for all statements
alike.
-/

namespace WardleyMap

inductive Clause where
  | coordinates
  | label
deriving DecidableEq

namespace Clause

def other : Clause → Clause
  | coordinates => label
  | label => coordinates

def fresh (clause : Clause) (precision : Nat) (values : List Float) : Text :=
  match clause with
  | coordinates => ' ' :: bracketText precision values
  | label => [' ', 'l', 'a', 'b', 'e', 'l', ' '] ++ bracketText precision values

end Clause

namespace Statement

def numbers? : Clause → Statement → Option (List Number)
  | .coordinates, placement p => p.coordinates.map Bracket.values
  | .coordinates, region r => r.coordinates.map Bracket.values
  | .label, placement p => p.label.map fun label => [label.dx, label.dy]
  | .label, evolution e => e.label.map fun label => [label.dx, label.dy]
  | _, _ => none

def write (clause : Clause) (precision : Nat) (values : List Float) (statement : Statement) :
    List Replacement :=
  match statement.numbers? clause with
  | some numbers => writeNumbers precision numbers values
  | none => [.insertion statement.insertPoint (clause.fresh precision values)]

end Statement

/-- Writing the numbers of a clause turns one line into the other: the new numbers print like the values,
the name and the other clause are read as before, and the line is kept but for the numbers that were
there, or else but for the clause that is put into it. -/
structure Rewrites (clause : Clause) (precision : Nat) (values : List Float) (line : Text)
    (statement : Statement) (line' : Text) (statement' : Statement) : Prop where
  shows : ∃ numbers, statement'.numbers? clause = some numbers ∧
    Field.Agree precision numbers values
  name : statement'.name?.map NameToken.value = statement.name?.map NameToken.value
  other : (statement'.numbers? clause.other).map (·.map Number.value)
    = (statement.numbers? clause.other).map (·.map Number.value)
  kept : ∀ numbers, statement.numbers? clause = some numbers →
    Field.KeptBut precision numbers values line line'
  fresh : statement.numbers? clause = none → line' = line.take statement.insertPoint ++
    (clause.fresh precision values ++ line.drop statement.insertPoint)

namespace Edit

/-- The clause of a placement or a region that the edit writes, and the values for its numbers. -/
def request? : Edit → Option (Clause × List Float)
  | move _ _ position => some (.coordinates, [position.visibility, position.maturity])
  | setRange _ start stop =>
    some (.coordinates, if start ≤ stop then [start, stop] else [stop, start])
  | resize _ first second =>
    some (.coordinates, [greater first.visibility second.visibility,
      lesser first.maturity second.maturity, lesser first.visibility second.visibility,
      greater first.maturity second.maturity])
  | setLabel kind _ offset =>
    if kind.isPlacement then some (.label, [offset.dx, offset.dy]) else none
  | rename _ _ _ | setOverride _ _ | moveEvolution _ _ | setText _ => none

end Edit

/-! ### Labels -/

variable {precision : Nat} {values : List Float}

/-- Writing the offset of a label gives a label at the same place. -/
theorem Field.applyAll_writeLabelled {gap : Text} {fs : List Field}
    (hlength : fs.length = values.length) (hfinite : ∀ x ∈ values, x.isFinite = true) {lead : Text}
    {col : Nat} (hcol : col = lead.length) (rest : Text) :
    let numbers := Field.numbers (col + 5 + gap.length + 1) fs
    let line := lead ++ (Field.labelled gap fs ++ rest)
    let line' := lead ++ (Field.labelled gap (Field.rewrite precision fs values) ++ rest)
    Replacement.applyAll (writeNumbers precision numbers values) line = line' ∧
      Field.KeptBut precision numbers values line line' := by
  have hsplit : ∀ fs : List Field, lead ++ (Field.labelled gap fs ++ rest)
      = (lead ++ (['l', 'a', 'b', 'e', 'l'] ++ (gap ++ ['[']))) ++ (Field.join fs ++ (']' :: rest)) := by
    intro fs
    simp only [Field.labelled, Field.bracketed, List.append_assoc, List.cons_append, List.nil_append]
  have hstart : col + 5 + gap.length + 1
      = (lead ++ (['l', 'a', 'b', 'e', 'l'] ++ (gap ++ ['[']))).length := by
    simp only [hcol, List.length_append, List.length_cons, List.length_nil]
    omega
  have hwritten := @Field.applyAll_writeNumbers precision _ _ _ _ hlength hfinite hstart (']' :: rest)
  rw [← hsplit, ← hsplit] at hwritten
  exact hwritten

/-- A label whose numbers are written anew is a label again, with the same blanks around its numbers. -/
theorem Field.exists_writeLabelled {gap : Text} {f g : Field} (hlength : values.length = 2)
    (hfinite : ∀ x ∈ values, x.isFinite = true) {lead : Text} {col : Nat}
    (hcol : col = lead.length) (rest : Text) : ∃ f' g' : Field,
      (∀ col, Field.Agree precision (Field.numbers col [f', g']) values) ∧
      let numbers := Field.numbers (col + 5 + gap.length + 1) [f, g]
      let line := lead ++ (Field.labelled gap [f, g] ++ rest)
      let line' := lead ++ (Field.labelled gap [f', g'] ++ rest)
      Replacement.applyAll (writeNumbers precision numbers values) line = line' ∧
        Field.KeptBut precision numbers values line line' := by
  have hfields : [f, g].length = values.length := hlength.symm
  obtain ⟨f', g', hrewrite⟩ := List.length_eq_two.mp (@Field.length_rewrite precision _ _ hfields)
  refine ⟨f', g', ?_, ?_⟩
  · rw [← hrewrite]
    exact Field.agree_rewrite hfields hfinite
  · rw [← hrewrite]
    exact Field.applyAll_writeLabelled hfields hfinite hcol rest

theorem Clause.exists_fresh_label (hlength : values.length = 2)
    (hfinite : ∀ x ∈ values, x.isFinite = true) : ∃ f g : Field,
      Clause.fresh .label precision values = ' ' :: Field.labelled [' '] [f, g] ∧
      ∀ col, Field.Agree precision (Field.numbers col [f, g]) values := by
  obtain ⟨fs, hfs, htext, hagree⟩ := @Field.exists_bracketText precision values
    (by rintro rfl; simp at hlength) hfinite
  obtain ⟨f, g, rfl⟩ := List.length_eq_two.mp (hfs.trans hlength)
  exact ⟨f, g, by rw [fresh, htext]; rfl, hagree⟩

/-! ### The text that a label is looked for in -/

/-- The text behind the coordinates, or behind the maturity, after the offset of the label has been
written. -/
def relabel (precision : Nat) (dx dy : Float) (tail : Text) : Text :=
  Replacement.applyAll (writeLabel precision (⟨0, tail⟩ : Cursor).label? 0 dx dy) tail

section Relabel

variable {dx dy : Float}

theorem relabel_of_none {tail : Text} (h : (⟨0, tail⟩ : Cursor).label? = none) :
    relabel precision dx dy tail = Clause.fresh .label precision [dx, dy] ++ tail := by
  rw [relabel, h]
  exact Replacement.applyAll_insertion_eq 0 _ tail

theorem relabel_of_found (hfinite : ∀ x ∈ [dx, dy], x.isFinite = true) {before gap : Text}
    (hbefore : Cursor.BeforeLabel before) (hgap : ∀ ch ∈ gap, isSpace ch = true) (f g : Field)
    (rest : Text) : relabel precision dx dy (before ++ (Field.labelled gap [f, g] ++ rest))
      = before ++ (Field.labelled gap (Field.rewrite precision [f, g] [dx, dy]) ++ rest) := by
  rw [relabel, hbefore.found gap f g rest 0 hgap]
  exact (Field.applyAll_writeLabelled rfl hfinite (Nat.zero_add _) rest).1

/-- The place at which the text starts does not matter. -/
theorem applyAll_writeLabel (hfinite : ∀ x ∈ [dx, dy], x.isFinite = true) (lead tail : Text) :
    Replacement.applyAll (writeLabel precision (⟨lead.length, tail⟩ : Cursor).label? lead.length dx dy)
      (lead ++ tail) = lead ++ relabel precision dx dy tail := by
  cases hlabel : (⟨lead.length, tail⟩ : Cursor).label? with
  | none =>
      rw [relabel_of_none (Cursor.label?_eq_none_of_col hlabel 0)]
      exact Replacement.applyAll_insertion rfl
  | some clause =>
      obtain ⟨before, gap, f, g, rest, hgap, htail, rfl, hbefore⟩ := Cursor.exists_beforeLabel hlabel
      obtain rfl : tail = before ++ (Field.labelled gap [f, g] ++ rest) := htail
      have hwritten := (@Field.applyAll_writeLabelled precision [dx, dy] gap [f, g] rfl hfinite
        (lead ++ before) _ List.length_append.symm rest).1
      rw [List.append_assoc, List.append_assoc] at hwritten
      rw [relabel_of_found hfinite hbefore hgap]
      exact hwritten

/-- A label that is written takes the place of plain text. -/
theorem exists_relabel (hfinite : ∀ x ∈ [dx, dy], x.isFinite = true) (tail : Text) :
    ∃ before old new rest, tail = before ++ (old ++ rest) ∧
      relabel precision dx dy tail = before ++ (new ++ rest) ∧ Name.IsPlain old ∧ Name.IsPlain new ∧
      (before = [] ∨ old ≠ [] ∧ new ≠ []) := by
  cases hlabel : (⟨0, tail⟩ : Cursor).label? with
  | none =>
      obtain ⟨f, g, hfresh, -⟩ := @Clause.exists_fresh_label precision [dx, dy] rfl hfinite
      refine ⟨[], [], Clause.fresh .label precision [dx, dy], tail, rfl, relabel_of_none hlabel,
        Name.isPlain_nil, ?_, Or.inl rfl⟩
      rw [hfresh]
      exact Name.isPlain_cons.mpr ⟨by decide, Field.isPlain_labelled isSpace_of_mem_space _⟩
  | some clause =>
      obtain ⟨before, gap, f, g, rest, hgap, htail, -, hbefore⟩ := Cursor.exists_beforeLabel hlabel
      obtain rfl : tail = before ++ (Field.labelled gap [f, g] ++ rest) := htail
      exact ⟨before, _, _, rest, rfl, relabel_of_found hfinite hbefore hgap f g rest,
        Field.isPlain_labelled hgap _, Field.isPlain_labelled hgap _,
        Or.inr ⟨List.cons_ne_nil _ _, List.cons_ne_nil _ _⟩⟩

end Relabel

end WardleyMap
