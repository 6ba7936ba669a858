import Mathlib.Data.List.Basic
import WardleyMap.Proofs.Cursor.Passes
import WardleyMap.Proofs.Decimal.Literal
import WardleyMap.Statement.Clause

/-!
# The grammar of brackets and labels

The readers of numbers, brackets and labels are given their grammar here: what they pass, and the
spans and values they report, are functions of a list of `Field`s, a literal each with the spaces
and tabs around it. `bracket?_eq_some_iff` and `labelClause?_eq_some_iff` say so in both directions.
A closing bracket ends either clause, so what follows it on the line is free, and an edit that
replaces literals by literals turns one list of fields into another.
-/

namespace WardleyMap

/-- A number between brackets as it is written: a literal with spaces and tabs around it. -/
structure Field where
  before : Text
  literal : Text
  after : Text
  isSpace_before : ∀ c ∈ before, isSpace c = true
  isLiteral : Decimal.isLiteral literal = true
  isSpace_after : ∀ c ∈ after, isSpace c = true

namespace Field

def text (f : Field) : Text :=
  f.before ++ (f.literal ++ f.after)

def number (f : Field) (col : Nat) : Number :=
  ⟨⟨col + f.before.length, col + f.before.length + f.literal.length⟩, Decimal.value f.literal⟩

def join : List Field → Text
  | [] => []
  | [f] => f.text
  | f :: g :: fs => f.text ++ ',' :: join (g :: fs)

def numbers (col : Nat) : List Field → List Number
  | [] => []
  | f :: fs => f.number col :: numbers (col + f.text.length + 1) fs

def bracketed (fs : List Field) : Text :=
  '[' :: (join fs ++ [']'])

def labelled (gap : Text) (fs : List Field) : Text :=
  ['l', 'a', 'b', 'e', 'l'] ++ (gap ++ bracketed fs)

def bracket (col : Nat) (fs : List Field) : Bracket :=
  ⟨⟨col, col + (bracketed fs).length⟩, numbers (col + 1) fs⟩

def labelClause (col : Nat) (gap : Text) (f g : Field) : LabelClause :=
  ⟨⟨col, col + (labelled gap [f, g]).length⟩, f.number (col + 5 + gap.length + 1),
    g.number (col + 5 + gap.length + 1 + f.text.length + 1)⟩

@[simp]
theorem length_numbers (col : Nat) (fs : List Field) : (numbers col fs).length = fs.length := by
  induction fs generalizing col with
  | nil => rfl
  | cons f fs ih => simp [numbers, ih]

end Field

namespace Cursor

variable {c c' : Cursor}

/-! ### Numbers and fields -/

theorem exists_literal_of_number? {number : Number} (h : c.number? = some (number, c')) :
    ∃ literal, Decimal.isLiteral literal = true ∧ Passes c literal c' ∧
      number = ⟨⟨c.col, c'.col⟩, Decimal.value literal⟩ := by
  unfold number? at h
  obtain ⟨n, hlength, heq⟩ := Option.map_eq_some_iff.mp h
  obtain ⟨literal, rest, hliteral, hrest, rfl⟩ := Decimal.exists_literal hlength
  have hpass : Passes c literal (c.advance literal.length) := ⟨by simp [advance, hrest], rfl⟩
  obtain ⟨rfl, rfl⟩ := Prod.mk.inj heq
  exact ⟨literal, hliteral, hpass, by simp [advance, hrest]⟩

theorem number?_of_passes {literal : Text} (h : Passes c literal c')
    (hliteral : Decimal.isLiteral literal = true) (hstop : Decimal.Stops c'.rest) :
    c.number? = some (⟨⟨c.col, c'.col⟩, Decimal.value literal⟩, c') := by
  unfold number?
  rw [h.rest, Decimal.literalLength?_append hliteral hstop, Option.map_some, List.take_left,
    h.advance_eq, h.col]

theorem exists_field_of_field? {number : Number} (h : c.field? = some (number, c')) :
    ∃ f : Field, Passes c f.text c' ∧ number = f.number c.col := by
  unfold field? at h
  obtain ⟨⟨number', c₁⟩, hnumber, heq⟩ := Option.map_eq_some_iff.mp h
  obtain ⟨literal, hliteral, hpass, rfl⟩ := exists_literal_of_number? hnumber
  obtain ⟨before, hbefore, hpassBefore, -⟩ := exists_skipSpaces c
  obtain ⟨after, hafter, hpassAfter, -⟩ := exists_skipSpaces c₁
  obtain ⟨rfl, rfl⟩ := Prod.mk.inj heq
  refine ⟨⟨before, literal, after, hbefore, hliteral, hafter⟩, ?_, ?_⟩
  · exact hpassBefore.trans (hpass.trans hpassAfter)
  · simp only [Field.number, hpass.col, hpassBefore.col]

theorem stops_of_isSpace {gap rest : Text} (hgap : ∀ ch ∈ gap, isSpace ch = true)
    (hrest : Decimal.Stops rest) : Decimal.Stops (gap ++ rest) := by
  cases gap with
  | nil => exact hrest
  | cons ch gap =>
      refine Decimal.stops_of_isBlank fun d hd => ?_
      obtain rfl : ch = d := by simpa using hd
      exact isBlank_of_isSpace (hgap ch List.mem_cons_self)

theorem not_isSpace_of_isNumeral {ch : Char} (h : Decimal.isNumeral ch = true) :
    isSpace ch = false := by
  by_contra hspace
  have := Decimal.not_isNumeral_of_isBlank (isBlank_of_isSpace (by simpa using hspace))
  simp [h] at this

theorem head_literal_append {literal rest : Text} (h : Decimal.isLiteral literal = true) :
    ∀ ch ∈ (literal ++ rest).head?, isSpace ch = false := by
  intro ch hch
  obtain ⟨d, literal', rfl⟩ := List.exists_cons_of_ne_nil (Decimal.literal_ne_nil h)
  obtain rfl : d = ch := by simpa using hch
  exact not_isSpace_of_isNumeral (Decimal.isNumeral_of_mem h d List.mem_cons_self)

/-- A field is read up to what cannot belong to it. -/
theorem field?_of_passes {f : Field} (h : Passes c f.text c')
    (hspace : ∀ ch ∈ c'.rest.head?, isSpace ch = false) (hstop : Decimal.Stops c'.rest) :
    c.field? = some (f.number c.col, c') := by
  have hrest : c.rest = f.before ++ (f.literal ++ (f.after ++ c'.rest)) := by
    rw [h.rest, Field.text]
    simp
  have hbefore : Passes c f.before ⟨c.col + f.before.length, f.literal ++ (f.after ++ c'.rest)⟩ :=
    ⟨hrest, rfl⟩
  have hliteral := Passes.mk_append (c.col + f.before.length) f.literal (f.after ++ c'.rest)
  have hafter : Passes ⟨c.col + f.before.length + f.literal.length, f.after ++ c'.rest⟩ f.after c' := by
    refine ⟨rfl, ?_⟩
    rw [h.col, Field.text]
    simp only [List.length_append]
    omega
  unfold field?
  rw [skipSpaces_eq hbefore f.isSpace_before (head_literal_append f.isLiteral),
    number?_of_passes hliteral f.isLiteral (stops_of_isSpace f.isSpace_after hstop), Option.map_some]
  simp only [skipSpaces_eq hafter f.isSpace_after hspace]
  rfl

/-- What was read as fields has been written as fields. -/
theorem exists_fields_of_fields? {n : Nat} {numbers : List Number}
    (h : c.fields? n = some (numbers, c')) : ∃ fs : List Field, fs.length = n + 1 ∧
      Passes c (Field.join fs) c' ∧ numbers = Field.numbers c.col fs := by
  induction n generalizing c numbers with
  | zero =>
      unfold fields? at h
      obtain ⟨⟨number, c₁⟩, hfield, heq⟩ := Option.map_eq_some_iff.mp h
      obtain ⟨f, hpass, rfl⟩ := exists_field_of_field? hfield
      obtain ⟨rfl, rfl⟩ := Prod.mk.inj heq
      exact ⟨[f], rfl, hpass, rfl⟩
  | succ n ih =>
      unfold fields? at h
      simp only [bind, Option.bind_eq_some_iff, pure] at h
      obtain ⟨⟨number, c₁⟩, hfield, c₂, hcomma, ⟨numbers', c₃⟩, hfields, heq⟩ := h
      obtain ⟨rfl, rfl⟩ := Prod.mk.inj (Option.some.inj heq)
      obtain ⟨f, hpass, rfl⟩ := exists_field_of_field? hfield
      obtain ⟨fs, hlength, hpassFields, rfl⟩ := ih hfields
      have hpassComma := accept?_eq_some_iff.mp hcomma
      obtain ⟨g, fs, rfl⟩ : ∃ g fs', fs = g :: fs' := List.exists_cons_of_length_eq_add_one hlength
      refine ⟨f :: g :: fs, by simpa using hlength, ?_, ?_⟩
      · exact hpass.trans (hpassComma.trans hpassFields)
      · rw [Field.numbers, hpassComma.col, hpass.col]
        rfl

/-- Fields that stand here are read, if nothing behind them prolongs the last one. -/
theorem fields?_of_passes {fs : List Field} {n : Nat} (hlength : fs.length = n + 1)
    (h : Passes c (Field.join fs) c') (hspace : ∀ ch ∈ c'.rest.head?, isSpace ch = false)
    (hstop : Decimal.Stops c'.rest) : c.fields? n = some (Field.numbers c.col fs, c') := by
  induction n generalizing c fs with
  | zero =>
      obtain ⟨f, rfl⟩ := List.length_eq_one_iff.mp hlength
      unfold fields?
      rw [field?_of_passes h hspace hstop]
      rfl
  | succ n ih =>
      obtain ⟨f, fs, rfl⟩ := List.exists_cons_of_length_eq_add_one hlength
      obtain ⟨g, fs, rfl⟩ : ∃ g fs', fs = g :: fs' :=
        List.exists_cons_of_length_eq_add_one (by simpa using hlength)
      have hpass : Passes c f.text ⟨c.col + f.text.length, ',' :: (Field.join (g :: fs) ++ c'.rest)⟩ := by
        refine ⟨?_, rfl⟩
        rw [h.rest, Field.join]
        simp
      have hcomma : Passes ⟨c.col + f.text.length, ',' :: (Field.join (g :: fs) ++ c'.rest)⟩ [',']
          ⟨c.col + f.text.length + 1, Field.join (g :: fs) ++ c'.rest⟩ := ⟨rfl, rfl⟩
      have hfields : Passes ⟨c.col + f.text.length + 1, Field.join (g :: fs) ++ c'.rest⟩
          (Field.join (g :: fs)) c' := by
        refine ⟨rfl, ?_⟩
        rw [h.col, Field.join]
        simp only [List.length_append, List.length_cons]
        omega
      unfold fields?
      rw [field?_of_passes hpass (by simp; decide) (Decimal.stops_cons (by decide) (by decide) _)]
      simp only [bind, Option.bind_some, pure, accept?_eq_some_iff.mpr hcomma,
        ih (by simpa using hlength) hfields]
      rfl

/-! ### Brackets and labels -/

/-- A bracket is read exactly where one of so many fields is written, whatever follows it. -/
theorem bracket?_eq_some_iff {n : Nat} {bracket : Bracket} :
    c.bracket? (n + 1) = some (bracket, c') ↔ ∃ fs : List Field, fs.length = n + 1 ∧
      Passes c (Field.bracketed fs) c' ∧ bracket = Field.bracket c.col fs := by
  unfold bracket?
  simp only [bind, Option.bind_eq_some_iff, pure, Nat.add_sub_cancel]
  constructor
  · rintro ⟨c₁, hopen, ⟨numbers, c₂⟩, hfields, c₃, hclose, heq⟩
    have hpassOpen := accept?_eq_some_iff.mp hopen
    have hpassClose := accept?_eq_some_iff.mp hclose
    obtain ⟨fs, hlength, hpass, rfl⟩ := exists_fields_of_fields? hfields
    obtain ⟨rfl, rfl⟩ := Prod.mk.inj (Option.some.inj heq)
    have hpassAll : Passes c (Field.bracketed fs) c₃ := hpassOpen.trans (hpass.trans hpassClose)
    refine ⟨fs, hlength, hpassAll, ?_⟩
    rw [hpassOpen.col, hpassAll.col]
    rfl
  · rintro ⟨fs, hlength, hpass, rfl⟩
    have hopen : Passes c ['['] ⟨c.col + 1, Field.join fs ++ (']' :: c'.rest)⟩ := by
      refine ⟨?_, rfl⟩
      rw [hpass.rest, Field.bracketed]
      simp
    have hfields := Passes.mk_append (c.col + 1) (Field.join fs) (']' :: c'.rest)
    have hclose : Passes ⟨c.col + 1 + (Field.join fs).length, ']' :: c'.rest⟩ [']'] c' := by
      refine ⟨rfl, ?_⟩
      rw [hpass.col, Field.bracketed]
      simp only [List.length_append, List.length_cons, List.length_nil]
      omega
    refine ⟨_, accept?_eq_some_iff.mpr hopen, _, fields?_of_passes hlength hfields (by simp; decide)
      (Decimal.stops_cons (by decide) (by decide) _), c', accept?_eq_some_iff.mpr hclose, ?_⟩
    rw [hpass.col]
    rfl

theorem bracket?_bracketed {fs : List Field} {n : Nat} (h : fs.length = n + 1) (col : Nat) (rest : Text) :
    (⟨col, Field.bracketed fs ++ rest⟩ : Cursor).bracket? (n + 1)
      = some (Field.bracket col fs, ⟨col + (Field.bracketed fs).length, rest⟩) :=
  bracket?_eq_some_iff.mpr ⟨fs, h, .mk_append col (Field.bracketed fs) rest, rfl⟩

/-- A label is read exactly where one is written. -/
theorem labelClause?_eq_some_iff {clause : LabelClause} :
    c.labelClause? = some clause ↔ ∃ (gap : Text) (f g : Field) (rest : Text),
      (∀ ch ∈ gap, isSpace ch = true) ∧ c.rest = Field.labelled gap [f, g] ++ rest ∧
      clause = Field.labelClause c.col gap f g := by
  unfold labelClause?
  simp only [bind, Option.bind_eq_some_iff, keyword?_eq_some_iff]
  constructor
  · rintro ⟨c₁, ⟨hword, -⟩, ⟨bracket, c₂⟩, hbracket, heq⟩
    obtain ⟨gap, hgap, hpassGap, -⟩ := exists_skipSpaces c₁
    obtain ⟨fs, hlength, hpass, rfl⟩ := bracket?_eq_some_iff.mp hbracket
    obtain ⟨f, g, rfl⟩ := List.length_eq_two.mp hlength
    obtain rfl := Option.some.inj heq
    refine ⟨gap, f, g, c₂.rest, hgap, (hword.trans (hpassGap.trans hpass)).rest, ?_⟩
    rw [hpassGap.col, hword.col]
    simp [Field.labelClause, Field.labelled]
    omega
  · rintro ⟨gap, f, g, rest, hgap, hrest, rfl⟩
    have hword : Passes c ['l', 'a', 'b', 'e', 'l']
        ⟨c.col + 5, gap ++ (Field.bracketed [f, g] ++ rest)⟩ := by
      refine ⟨?_, rfl⟩
      rw [hrest, Field.labelled]
      simp
    have hpassGap := Passes.mk_append (c.col + 5) gap (Field.bracketed [f, g] ++ rest)
    have hbracket := Passes.mk_append (c.col + 5 + gap.length) (Field.bracketed [f, g]) rest
    have hboundary : (⟨c.col + 5, gap ++ (Field.bracketed [f, g] ++ rest)⟩ : Cursor).atBoundary
        = true := by
      cases gap with
      | nil => rfl
      | cons ch gap => simp [atBoundary, isBlank_of_isSpace (hgap ch List.mem_cons_self)]
    have hread : (⟨c.col + 5, gap ++ (Field.bracketed [f, g] ++ rest)⟩ : Cursor).skipSpaces.bracket? 2
        = some (Field.bracket (c.col + 5 + gap.length) [f, g],
          ⟨c.col + 5 + gap.length + (Field.bracketed [f, g]).length, rest⟩) := by
      rw [skipSpaces_eq hpassGap hgap (by simp [Field.bracketed]; decide)]
      exact bracket?_eq_some_iff.mpr ⟨[f, g], rfl, hbracket, rfl⟩
    refine ⟨_, ⟨hword, hboundary⟩, _, hread, ?_⟩
    simp [Field.bracket, Field.numbers, Field.labelClause, Field.labelled]
    omega

end Cursor

end WardleyMap
