import WardleyMap.Proofs.Statement.Exchange
import WardleyMap.Proofs.Statement.WrittenName

/-!
# The parts of a phrase

A phrase is a line as the grammar of statements builds it. Its smallest parts are spaces, names, numbers
and the label with whatever follows it. Each part carries the proof that it is well formed, so that a
phrase cannot be put together from anything else, and the theorems about phrases need no hypotheses.
-/

namespace WardleyMap

open Text

theorem Cursor.label?_blanks {s : Text} (hs : s.isAllBlank = true) (t : Text) (col : Nat) :
    (⟨col, s ++ t⟩ : Cursor).label? = (⟨col + s.length, t⟩ : Cursor).label? := by
  induction s generalizing col with
  | nil => rfl
  | cons c s ih =>
      have hblank := isAllBlank_iff.mp hs
      rw [List.cons_append, label?_blank (hblank c List.mem_cons_self), List.length_cons,
        ih (isAllBlank_iff.mpr fun d hd => hblank d (List.mem_cons_of_mem c hd)), Nat.add_assoc,
        Nat.add_comm 1]

def Field.plain (literal : Text) (h : Decimal.isLiteral literal = true) : Field :=
  ⟨[], literal, [], by simp, h, by simp⟩

def Field.spaced (literal : Text) (h : Decimal.isLiteral literal = true) : Field :=
  ⟨[' '], literal, [], isSpace_of_mem_space, h, by simp⟩

namespace Grammar

theorem not_isSpace_of_head? {rest : Text} (h : rest.head? = some '[') :
    ∀ ch ∈ rest.head?, isSpace ch = false := by
  intro ch hch
  rw [h] at hch
  obtain rfl := Option.some.inj hch
  rfl

structure Spaces where
  text : Text
  isSpace : ∀ ch ∈ text, isSpace ch = true

theorem Spaces.not_mem (s : Spaces) {ch : Char} (hch : WardleyMap.isSpace ch = false) : ch ∉ s.text := by
  intro hmem
  rw [s.isSpace ch hmem] at hch
  exact absurd hch (by decide)

theorem Spaces.isAllBlank (s : Spaces) : s.text.isAllBlank = true :=
  isAllBlank_iff.mpr fun ch hch => isBlank_of_isSpace (s.isSpace ch hch)

structure Gap extends Spaces where
  ne_nil : text ≠ []

def Spaces.none : Spaces :=
  ⟨[], by simp⟩

def Spaces.one : Spaces :=
  ⟨[' '], isSpace_of_mem_space⟩

def Gap.space : Gap :=
  ⟨.one, by simp [Spaces.one]⟩

/-- A name that can be read back from what is written for it. -/
structure GivenName where
  text : Text
  ne_nil : text ≠ []
  no_backslash : '\\' ∉ text
  no_return : '\r' ∉ text

/-- A name that is written as it is. -/
structure BareName where
  text : Text
  ne_nil : text ≠ []
  no_quoting : Name.needsQuoting text = false

/-- A number that stands outside of brackets. `Decimal.isLiteral_iff` is the grammar of its digits. -/
structure Numeral where
  text : Text
  isLiteral : Decimal.isLiteral text = true

/-- A label with the blanks before it, and whatever follows it on the line. -/
structure LabelTail where
  blanks : Text
  isAllBlank : blanks.isAllBlank = true
  gap : Spaces
  dx : Field
  dy : Field
  rest : Text

namespace LabelTail

def fromWord (t : LabelTail) : Text :=
  Field.labelled t.gap.text [t.dx, t.dy] ++ t.rest

def text (t : LabelTail) : Text :=
  t.blanks ++ t.fromWord

def clause (col : Nat) (t : LabelTail) : LabelClause :=
  Field.labelClause (col + t.blanks.length) t.gap.text t.dx t.dy

theorem startsLabel (t : LabelTail) : StartsLabel t.fromWord :=
  ⟨t.gap.text, t.dx, t.dy, t.rest, t.gap.isSpace, rfl⟩

end LabelTail

def tailBlanks (tail : Option LabelTail) : Text :=
  (tail.map LabelTail.blanks).getD []

def tailFromWord (tail : Option LabelTail) : Text :=
  (tail.map LabelTail.fromWord).getD []

theorem isAllBlank_tailBlanks (tail : Option LabelTail) : (tailBlanks tail).isAllBlank = true := by
  cases tail with
  | none => rfl
  | some t => exact t.isAllBlank

def tailText (tail : Option LabelTail) : Text :=
  (tail.map LabelTail.text).getD []

theorem tailText_eq (tail : Option LabelTail) : tailText tail = tailBlanks tail ++ tailFromWord tail := by
  cases tail <;> rfl

theorem label?_tailFromWord (tail : Option LabelTail) (col : Nat) :
    (⟨col + (tailBlanks tail).length, tailFromWord tail⟩ : Cursor).label?
      = tail.map (LabelTail.clause col) := by
  cases tail with
  | none => rfl
  | some t => exact Cursor.label?_labelled t.gap.isSpace t.dx t.dy t.rest _

theorem label?_tailText (tail : Option LabelTail) (col : Nat) :
    (⟨col, tailText tail⟩ : Cursor).label? = tail.map (LabelTail.clause col) := by
  rw [tailText_eq, Cursor.label?_blanks (isAllBlank_tailBlanks tail), label?_tailFromWord]

namespace GivenName

variable (n : GivenName)

def written : Text :=
  Name.encode n.text

theorem quoted_or_bare : (Name.IsQuoted n.written ∧ Name.decode n.written = n.text) ∨
    (Name.IsBare n.text ∧ n.written = n.text) := by
  cases hquoting : Name.needsQuoting n.text with
  | true =>
      obtain ⟨hquoted, hdecode⟩ := Name.isQuoted_encode n.no_backslash hquoting
      rw [Name.unifyBreaks_of_not_mem n.no_return] at hdecode
      exact .inl ⟨hquoted, hdecode⟩
  | false =>
      have hbare := Name.isBare_iff.mp hquoting
      exact .inr ⟨hbare, hbare.encode_eq⟩

theorem head_written (rest : Text) : ∀ ch ∈ (n.written ++ rest).head?, isSpace ch = false := by
  intro ch hch
  rcases n.quoted_or_bare with ⟨hquoted, -⟩ | ⟨hbare, hwritten⟩
  · rw [List.head?_append, hquoted.head?] at hch
    obtain rfl := Option.some.inj hch
    rfl
  · rw [hwritten] at hch
    exact not_isSpace_of_not_isBlank (hbare.head_append n.ne_nil rest ch hch)

/-- The written name is read as the name, wherever coordinates follow it. -/
theorem placement_written {gap rest : Text} (hgap : ∀ ch ∈ gap, isSpace ch = true)
    (hrest : ∀ ch ∈ rest.head?, ch = '[') : Placement.Written [] n.written (gap ++ rest) n.text := by
  rcases n.quoted_or_bare with ⟨hquoted, hdecode⟩ | ⟨hbare, -⟩
  · rw [← hdecode]
    exact .quoted hquoted
  · have hwritten := Name.written_encode (hbare.isAllBlank_eq_false n.ne_nil) n.no_backslash hgap hrest
    rwa [Name.unifyBreaks_of_not_mem n.no_return] at hwritten

end GivenName

end Grammar

end WardleyMap
