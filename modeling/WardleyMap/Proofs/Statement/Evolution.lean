import WardleyMap.Proofs.Name.Arrow
import WardleyMap.Proofs.Statement.NameToken
import WardleyMap.Proofs.Statement.Word

/-!
# The parts of an evolved component

Without quotes an `evolve` line falls into parts by two cuts. The first label ends what the names and the
maturity are read from, and in that the first arrow, if there is one, separates the two names. What is
left is a stretch of text in which a bare name stands, and behind it the last number. As for placements,
the reading is stated for a line that is given in these parts, so that an edit is a change of parts.
-/

namespace WardleyMap

open Text

namespace Evolution

/-- The last stretch of a line without its label: the blanks around a bare name, the name, the last
number, if there is one, and what follows the number. -/
structure Stretch where
  before : Text
  name : Text
  after : Text
  literal : Text
  trailing : Text

namespace Stretch

def text (s : Stretch) : Text :=
  s.before ++ (s.name ++ (s.after ++ (s.literal ++ s.trailing)))

def token (col : Nat) (s : Stretch) : NameToken :=
  ⟨⟨col + s.before.length, col + s.before.length + s.name.length⟩, s.name⟩

def maturity? (col : Nat) (s : Stretch) : Option Number :=
  let start := col + (s.before ++ (s.name ++ s.after)).length
  if s.literal = [] then none
  else some ⟨⟨start, start + s.literal.length⟩, Decimal.value s.literal⟩

structure Reads (s : Stretch) : Prop where
  no_quote : '"' ∉ s.text
  trims : Trims s.before s.name s.after
  number : (Decimal.isLiteral s.literal = true ∧ EndsBlank (s.before ++ (s.name ++ s.after)) ∧
      StartsBlank s.trailing ∧ (⟨0, s.trailing⟩ : Cursor).numbers = []) ∨
    (s.literal = [] ∧ s.trailing = [] ∧ (⟨0, s.text⟩ : Cursor).numbers = [])

variable {s : Stretch}

theorem text_eq (s : Stretch) :
    s.text = (s.before ++ (s.name ++ s.after)) ++ (s.literal ++ s.trailing) := by
  simp only [text, List.append_assoc]

theorem text_ne_nil (hname : s.name ≠ []) : s.text ≠ [] := by
  simp [text, hname]

theorem head?_text (hname : s.name ≠ []) : s.text.head? = (s.before ++ s.name).head? := by
  obtain ⟨c, t, ht⟩ := List.exists_cons_of_ne_nil (List.append_ne_nil_of_right_ne_nil s.before hname)
  rw [text, ← List.append_assoc, ht]
  rfl

theorem Reads.number_of_ne_nil (h : s.Reads) (hne : s.literal ≠ []) :
    Decimal.isLiteral s.literal = true ∧ EndsBlank (s.before ++ (s.name ++ s.after)) ∧
      StartsBlank s.trailing ∧ (⟨0, s.trailing⟩ : Cursor).numbers = [] :=
  h.number.resolve_right fun hnil => hne hnil.1

theorem Reads.trailing_eq_nil (h : s.Reads) (hnil : s.literal = []) : s.trailing = [] :=
  (h.number.resolve_left fun hliteral => Decimal.literal_ne_nil hliteral.1 hnil).2.1

theorem Reads.text_of_nil (h : s.Reads) (hnil : s.literal = []) :
    s.text = (s.before ++ s.name) ++ s.after := by
  rw [text, hnil, h.trailing_eq_nil hnil, List.append_nil, List.append_nil, List.append_assoc]

/-- Every text without quotes has the parts of a stretch. -/
theorem exists_reads {t : Text} (hquote : '"' ∉ t) : ∃ s : Stretch, s.Reads ∧ s.text = t := by
  by_cases hnumbers : (⟨0, t⟩ : Cursor).numbers = []
  · obtain ⟨before, after, ht, htrims⟩ := exists_trims t
    have htext : text ⟨before, t.trim, after, [], []⟩ = t := by
      simpa [text] using ht.symm
    refine ⟨⟨before, t.trim, after, [], []⟩, ⟨?_, htrims, Or.inr ⟨rfl, rfl, ?_⟩⟩, htext⟩
    · rwa [htext]
    · rwa [htext]
  · obtain ⟨front, literal, trailing, rfl, hliteral, hfront, htrailing, hnone⟩ :=
      Cursor.exists_lastNumber hquote hnumbers
    obtain ⟨before, after, hsplit, htrims⟩ := exists_trims front
    have htext : text ⟨before, Text.trim front, after, literal, trailing⟩
        = front ++ (literal ++ trailing) := by
      conv_rhs => rw [hsplit]
      simp only [text, List.append_assoc]
    refine ⟨⟨before, Text.trim front, after, literal, trailing⟩,
      ⟨?_, htrims, Or.inl ⟨hliteral, ?_, htrailing, hnone⟩⟩, htext⟩
    · rwa [htext]
    · rw [hsplit, List.append_assoc] at hfront
      exact hfront

/-- A stretch is read as its parts, with or without a number. -/
theorem Reads.bare_eq (h : s.Reads) (col : Nat) :
    Head.bare ⟨col, s.text⟩ = ⟨s.token col, s.maturity? col,
      ⟨col + (s.before ++ (s.name ++ s.after)).length, s.literal ++ s.trailing⟩⟩ := by
  have hsplit := s.text_eq
  have hpass : Cursor.Passes ⟨col, s.text⟩ (s.before ++ s.name ++ s.after)
      ⟨col + (s.before ++ (s.name ++ s.after)).length, s.literal ++ s.trailing⟩ := by
    rw [List.append_assoc]
    exact ⟨hsplit, rfl⟩
  have hname := Cursor.bareName_eq h.trims hpass
  have hseek := hpass.seek_eq
  unfold Head.bare maturity?
  rcases h.number with ⟨hliteral, hends, hstarts, hnone⟩ | ⟨hliteral, htrailing, hnone⟩
  · have hquote : '"' ∉ s.before ++ (s.name ++ s.after) := by
      have := h.no_quote
      rw [hsplit] at this
      exact fun hmem => this (List.mem_append_left _ hmem)
    have hlast := Cursor.lastNumber?_of_append hquote hliteral hends hstarts hnone col
    rw [← hsplit] at hlast
    simp only [hlast, if_neg (Decimal.literal_ne_nil hliteral), hname, hseek]
    rfl
  · have hlast : (⟨col, s.text⟩ : Cursor).lastNumber? = none := by
      rw [Cursor.lastNumber?_eq, Cursor.numbers_eq_nil_of_col hnone, List.getLast?_nil]
    have hend : (⟨col, s.text⟩ : Cursor).lineEnd
        = col + (s.before ++ (s.name ++ s.after)).length := by
      rw [Cursor.lineEnd, hsplit, hliteral, htrailing, List.append_nil, List.append_nil]
    simp only [hlast, if_pos hliteral, hend, hname, hseek]
    rfl

end Stretch

/-- What stands before the second of two names: the blanks around the first name, the name, and the
spaces after the arrow. -/
structure Front where
  before : Text
  name : Text
  after : Text
  gap : Text

namespace Front

def upToArrow (f : Front) : Text :=
  f.before ++ (f.name ++ f.after)

def text (f : Front) : Text :=
  f.upToArrow ++ (Name.arrow ++ f.gap)

def token (col : Nat) (f : Front) : NameToken :=
  ⟨⟨col + f.before.length, col + f.before.length + f.name.length⟩, f.name⟩

def arrow (col : Nat) (f : Front) : Span :=
  ⟨col + f.upToArrow.length, col + f.upToArrow.length + 2⟩

structure Reads (f : Front) : Prop where
  no_quote : '"' ∉ f.upToArrow
  trims : Trims f.before f.name f.after
  noArrow : Name.NoArrow f.upToArrow
  isSpace_gap : ∀ ch ∈ f.gap, isSpace ch = true

end Front

def frontText (front : Option Front) : Text :=
  (front.map Front.text).getD []

/-- Where the front ends and the stretch starts is read as it was written. -/
def Leads (front : Option Front) (rest : Text) : Prop :=
  match front with
  | none => Name.NoArrow rest
  | some f => f.Reads ∧ ∀ ch ∈ rest.head?, isSpace ch = false

/-- The names and the maturity that are read from the front and the stretch, of which the front starts at
column `col`. -/
def ofParts (col : Nat) (front : Option Front) (s : Stretch) (label : Option LabelClause) :
    Evolution :=
  let start := col + (frontText front).length
  ⟨(front.map (Front.token col)).getD (s.token start),
    front.map fun f => ⟨f.arrow col, s.token start⟩, s.maturity? start, label⟩

/-! ### Reading the names and the maturity -/

theorem maturityAt_of_isAllBlank {c : Cursor} (h : c.rest.isAllBlank = true) :
    maturityAt c = none := by
  have hnone : c.skipSpaces.number? = none := by
    cases hnumber : c.skipSpaces.number? with
    | none => rfl
    | some found =>
        obtain ⟨literal, hliteral, hpass, -⟩ := Cursor.exists_literal_of_number? hnumber
        obtain ⟨d, literal, rfl⟩ := List.exists_cons_of_ne_nil (Decimal.literal_ne_nil hliteral)
        have hmem : d ∈ c.rest := by
          rw [(Cursor.passes_skipSpaces c).rest, hpass.rest]
          simp
        have hblank := isAllBlank_iff.mp h d hmem
        rw [Decimal.not_isBlank_of_mem hliteral d List.mem_cons_self] at hblank
        exact absurd hblank (by decide)
  rw [maturityAt, hnone]

theorem quotedName?_eq_none {c : Cursor} (h : '"' ∉ c.rest) : c.quotedName? = none :=
  Cursor.quotedName?_eq_none_iff.mpr
    (Name.quotedLength?_eq_none_of_head? fun hhead => h (List.mem_of_head? hhead))

/-- Behind an arrow the stretch gives the second name and the number. -/
theorem ofOverride_eq {s : Stretch} (h : s.Reads) (col : Nat) :
    (Head.ofOverride ⟨col, s.text⟩).name = s.token col ∧
    ((Head.ofOverride ⟨col, s.text⟩).maturity <|> maturityAt (Head.ofOverride ⟨col, s.text⟩).rest)
      = s.maturity? col := by
  have hquoted : (⟨col, s.text⟩ : Cursor).quotedName? = none := quotedName?_eq_none h.no_quote
  have hhead : Head.ofOverride ⟨col, s.text⟩ = ⟨s.token col, s.maturity? col,
      (⟨col, s.text⟩ : Cursor).seek (s.token col).span.stop⟩ := by
    simp only [Head.ofOverride, hquoted, h.bare_eq col]
  rw [hhead]
  refine ⟨rfl, ?_⟩
  by_cases hliteral : s.literal = []
  · -- without a number only blanks follow the name
    have hpass : Cursor.Passes ⟨col, s.text⟩ (s.before ++ s.name)
        ⟨(s.token col).span.stop, s.after ++ (s.literal ++ s.trailing)⟩ := by
      refine ⟨(List.append_assoc ..).symm, ?_⟩
      rw [List.length_append, ← Nat.add_assoc]
      rfl
    have hrest : s.after ++ (s.literal ++ s.trailing) = s.after := by
      rw [hliteral, h.trailing_eq_nil hliteral, List.append_nil, List.append_nil]
    dsimp only
    rw [hpass.seek_eq, hrest, maturityAt_of_isAllBlank h.trims.after_blank, Stretch.maturity?,
      if_pos hliteral]
    rfl
  · dsimp only
    rw [Stretch.maturity?, if_neg hliteral]
    rfl

/-- Behind the first name, with spaces before it or not, an arrow introduces the second one. -/
theorem ofBody_of_arrow {c place : Cursor} {name : NameToken} {gap rest : Text} (spaces : Text)
    (hbase : Head.ofCursor c = ⟨name, none, place⟩)
    (hplace : place.rest = spaces ++ (Name.arrow ++ (gap ++ rest)))
    (hspaces : ∀ ch ∈ spaces, isSpace ch = true) (hgap : ∀ ch ∈ gap, isSpace ch = true)
    (hhead : ∀ ch ∈ rest.head?, isSpace ch = false) (label : Option LabelClause) :
    let arrow := place.col + spaces.length
    let head := Head.ofOverride ⟨arrow + 2 + gap.length, rest⟩
    ofBody c label
      = ⟨name, some ⟨⟨arrow, arrow + 2⟩, head.name⟩, head.maturity <|> maturityAt head.rest, label⟩ := by
  intro arrow head
  have harrow : place.skipSpaces = ⟨arrow, Name.arrow ++ (gap ++ rest)⟩ := by
    refine Cursor.skipSpaces_eq ⟨hplace, rfl⟩ hspaces fun ch hch => ?_
    obtain rfl : '-' = ch := by simpa [Name.arrow] using hch
    rfl
  have hpassArrow : Cursor.Passes ⟨arrow, Name.arrow ++ (gap ++ rest)⟩ Name.arrow
      ⟨arrow + 2, gap ++ rest⟩ := ⟨rfl, rfl⟩
  have hpassGap := Cursor.Passes.mk_append (arrow + 2) gap rest
  unfold ofBody
  simp only [hbase, harrow, Cursor.acceptText?_eq_some_iff.mpr hpassArrow,
    Cursor.skipSpaces_eq hpassGap hgap hhead]
  rfl

theorem ofBody_of_not_mem {c place : Cursor} {name : NameToken}
    (hbase : Head.ofCursor c = ⟨name, none, place⟩) (harrow : '>' ∉ place.rest)
    (label : Option LabelClause) : ofBody c label = ⟨name, none, maturityAt place, label⟩ := by
  have hnone : place.skipSpaces.acceptText? Name.arrow = none := by
    rw [Option.eq_none_iff_forall_ne_some]
    intro c' hc'
    have hrest := (Cursor.acceptText?_eq_some_iff.mp hc').rest
    refine harrow ?_
    rw [(Cursor.passes_skipSpaces place).rest, hrest]
    simp [Name.arrow]
  unfold ofBody
  simp only [hbase, hnone]

/-- A bare first name is read up to the first arrow, whatever follows that. -/
theorem Head.ofCursor_bare {up rest : Text} (hup : Name.NoArrow up)
    (hopen : Name.quotedLength? (up ++ (Name.arrow ++ rest)) = none) (col : Nat) :
    Head.ofCursor ⟨col, up ++ (Name.arrow ++ rest)⟩
      = ⟨Cursor.bareName ⟨col, up⟩ (col + up.length), none,
          ⟨col + up.length, Name.arrow ++ rest⟩⟩ := by
  have hquoted : (⟨col, up ++ (Name.arrow ++ rest)⟩ : Cursor).quotedName? = none :=
    Cursor.quotedName?_eq_none_iff.mpr hopen
  have hname : Cursor.bareName ⟨col, up ++ (Name.arrow ++ rest)⟩ (col + up.length)
      = Cursor.bareName ⟨col, up⟩ (col + up.length) := by
    simp only [Cursor.bareName, Nat.add_sub_cancel_left, List.take_left, List.take_length]
  have hadvance := (Cursor.Passes.mk_append col up (Name.arrow ++ rest)).advance_eq
  simp only [Head.ofCursor, hquoted, Name.find?_append_arrow hup, hname, hadvance]

/-- In front of an arrow the front gives the first name. -/
theorem Front.Reads.head_eq {f : Front} (h : f.Reads) (col : Nat) (rest : Text) :
    Head.ofCursor ⟨col, f.text ++ rest⟩
      = ⟨f.token col, none, ⟨col + f.upToArrow.length, Name.arrow ++ (f.gap ++ rest)⟩⟩ := by
  have hsplit : f.text ++ rest = f.upToArrow ++ (Name.arrow ++ (f.gap ++ rest)) := by
    simp only [Front.text, List.append_assoc]
  have hhead : (f.upToArrow ++ (Name.arrow ++ (f.gap ++ rest))).head? ≠ some '"' := by
    have hno_quote := h.no_quote
    cases hup : f.upToArrow with
    | nil => simp [Name.arrow]
    | cons d up =>
        rw [hup, List.mem_cons, not_or] at hno_quote
        simpa using Ne.symm hno_quote.1
  have hpass : Cursor.Passes ⟨col, f.upToArrow⟩ (f.before ++ f.name ++ f.after)
      ⟨col + f.upToArrow.length, []⟩ := by
    rw [List.append_assoc]
    exact ⟨(List.append_nil _).symm, rfl⟩
  have hname : Cursor.bareName ⟨col, f.upToArrow⟩ (col + f.upToArrow.length) = f.token col :=
    Cursor.bareName_eq h.trims hpass
  rw [hsplit, Head.ofCursor_bare h.noArrow (Name.quotedLength?_eq_none_of_head? hhead), hname]

/-- The two halves put together: with or without a front, the body is read as its parts. -/
theorem ofBody_eq {front : Option Front} {s : Stretch} (hs : s.Reads) (hfront : Leads front s.text)
    (col : Nat) (label : Option LabelClause) :
    ofBody ⟨col, frontText front ++ s.text⟩ label = ofParts col front s label := by
  cases front with
  | none =>
      have hquoted : (⟨col, s.text⟩ : Cursor).quotedName? = none := quotedName?_eq_none hs.no_quote
      have harrow : s.text.find? Name.arrow = none := Name.find?_arrow_eq_none_iff.mpr hfront
      have hbase : Head.ofCursor ⟨col, s.text⟩ = Head.bare ⟨col, s.text⟩ := by
        simp only [Head.ofCursor, hquoted, harrow]
      change ofBody ⟨col, s.text⟩ label = ⟨s.token col, none, s.maturity? col, label⟩
      unfold ofBody
      rw [hbase, hs.bare_eq col]
      by_cases hliteral : s.literal = []
      · have hrest : s.literal ++ s.trailing = [] := by
          rw [hliteral, hs.trailing_eq_nil hliteral, List.append_nil]
        have hmaturity : s.maturity? col = none := if_pos hliteral
        rw [hrest, hmaturity]
        rfl
      · rw [Stretch.maturity?, if_neg hliteral]
  | some f =>
      obtain ⟨hf, hhead⟩ := hfront
      have hread := ofBody_of_arrow [] (hf.head_eq col s.text) rfl (by simp)
        hf.isSpace_gap hhead label
      have hstart : col + f.upToArrow.length + 2 + f.gap.length = col + f.text.length := by
        simp only [Front.text, Name.arrow, List.length_append, List.length_cons, List.length_nil]
        omega
      obtain ⟨hname, hmaturity⟩ := ofOverride_eq hs (col + f.text.length)
      change ofBody ⟨col, f.text ++ s.text⟩ label = ⟨f.token col,
        some ⟨f.arrow col, s.token (col + f.text.length)⟩, s.maturity? (col + f.text.length), label⟩
      rw [hread]
      simp only [List.length_nil, Nat.add_zero, hstart, hname, hmaturity]
      rfl

end Evolution

end WardleyMap
