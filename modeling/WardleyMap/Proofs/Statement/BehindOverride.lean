import WardleyMap.Proofs.Edit.Deletion
import WardleyMap.Proofs.Statement.OpenQuote

/-!
# Behind a quoted override

Once the second name of an `evolve` line is read from between quotes, both names are settled: nothing that
stands behind the closing quote takes part in them, apart from a quote that the first name opened and that
has to stay open. What is left for the rest of the line is the number behind the names. A text that is put
behind that number, or behind the name where there is none, changes neither the names nor the number.
-/

namespace WardleyMap

open Text

def OverrideClause.IsQuoted (clause : OverrideClause) (line : Text) : Prop :=
  Name.IsQuoted (clause.name.span.slice line) ∧
    clause.name.value = Name.decode (clause.name.span.slice line)

namespace Name

theorem length_unescape_le (body : Text) : (unescape body).length ≤ body.length := by
  induction body using unescape.induct with
  | case1 => exact Nat.le_refl 0
  | case2 s ih | case3 s ih =>
      simp only [unescape, List.length_cons]
      omega
  | case4 c s hn hquote ih =>
      simp only [unescape.eq_4 c s hn hquote, List.length_cons]
      omega

theorem IsQuoted.length_decode_lt {q : Text} (h : IsQuoted q) : (decode q).length < q.length := by
  obtain ⟨body, rfl, hdecode⟩ := h.exists_body
  have := length_unescape_le body
  rw [hdecode]
  simp only [List.length_cons, List.length_append, List.length_nil]
  omega

end Name

namespace Evolution

theorem ofBody_withLabel (c : Cursor) (label : Option LabelClause) :
    ofBody c label = { ofBody c none with label } := by
  unfold ofBody
  dsimp only
  split
  · rfl
  · split <;> rfl

/-- A name that is not read from between quotes is as long as it is written. -/
theorem length_slice_bareName (c : Cursor) (stop : Nat) (line : Text) :
    ((c.bareName stop).span.slice line).length ≤ (c.bareName stop).value.length := by
  obtain ⟨before, name, after, -, -, hname⟩ := Cursor.exists_bareName c stop
  rw [hname]
  simp only [Span.slice, List.length_drop, List.length_take]
  omega

/-- Where the override stands between quotes, the reader has taken it as a quoted name. -/
theorem quotedName?_of_isQuoted {c : Cursor} {arrow : Span} {line : Text}
    (h : OverrideClause.IsQuoted ⟨arrow, (Head.ofOverride c).name⟩ line) :
    c.quotedName? = some (Head.ofOverride c).name := by
  cases hname : c.quotedName? with
  | some name => simp only [Head.ofOverride, hname]
  | none =>
      obtain ⟨stop, hstop⟩ : ∃ stop, (Head.ofOverride c).name = c.bareName stop := by
        simp only [Head.ofOverride, hname, Head.bare]
        split <;> exact ⟨_, rfl⟩
      obtain ⟨hquoted, hvalue⟩ := h
      have hshort := hquoted.length_decode_lt
      rw [← hvalue, hstop] at hshort
      exact absurd (length_slice_bareName c stop line) (Nat.not_le_of_lt hshort)

/-- A second name is read only where an arrow, and no number, follows the first one. -/
theorem exists_arrow {c : Cursor} {label : Option LabelClause} {clause : OverrideClause}
    (h : (ofBody c label).override = some clause) : (Head.ofCursor c).maturity = none ∧
      ∃ behind, (Head.ofCursor c).rest.skipSpaces.acceptText? Name.arrow = some behind := by
  unfold ofBody at h
  cases hmaturity : (Head.ofCursor c).maturity with
  | some number => simp [hmaturity] at h
  | none =>
      cases harrow : (Head.ofCursor c).rest.skipSpaces.acceptText? Name.arrow with
      | some behind => exact ⟨rfl, behind, rfl⟩
      | none => simp [hmaturity, harrow] at h

/-- Behind a name that runs up to the last number or to the end, no second one is read. -/
theorem exists_find?_arrow {c : Cursor} {label : Option LabelClause} {clause : OverrideClause}
    (h : (ofBody c label).override = some clause) (hquoted : c.quotedName? = none) :
    ∃ i, Text.find? c.rest Name.arrow = some i := by
  refine Option.ne_none_iff_exists'.mp fun hfind => ?_
  obtain ⟨hmaturity, behind, hbehind⟩ := exists_arrow h
  simp only [Head.ofCursor, hquoted, hfind, Head.bare] at hmaturity hbehind
  split at hmaturity
  · simp at hmaturity
  · next hnumber =>
      have hend : c.Passes c.rest ⟨c.lineEnd, []⟩ := ⟨(List.append_nil _).symm, rfl⟩
      have hseek := hend.seek_eq
      dsimp only at hseek
      simp only [hnumber, hseek] at hbehind
      have hrest := (Cursor.acceptText?_eq_some_iff.mp hbehind).rest
      simp [Cursor.skipSpaces_rest, Name.arrow] at hrest

/-- The first name stands in front of the first arrow, or of the arrow behind it if it is quoted, and is read
the same whatever follows the arrow, unless it would come to be a quoted one. -/
theorem exists_upToArrow {c : Cursor} {label : Option LabelClause} {clause : OverrideClause}
    (h : (ofBody c label).override = some clause) : ∃ up spaces rest : Text,
      c.rest = up ++ (spaces ++ (Name.arrow ++ rest)) ∧ (∀ ch ∈ spaces, isSpace ch = true) ∧
      ∀ rest' : Text,
        (Name.quotedLength? c.rest = none →
          Name.quotedLength? (up ++ (spaces ++ (Name.arrow ++ rest'))) = none) →
        Head.ofCursor ⟨c.col, up ++ (spaces ++ (Name.arrow ++ rest'))⟩
          = ⟨(ofBody c label).name, none, ⟨c.col + up.length, spaces ++ (Name.arrow ++ rest')⟩⟩ := by
  rw [name_ofBody]
  cases hquoted : c.quotedName? with
  | some token =>
      obtain ⟨col, s⟩ := c
      obtain ⟨q, rest, hq, hrest, rfl⟩ := Cursor.quotedName?_eq_some_iff.mp hquoted
      obtain rfl : s = q ++ rest := hrest
      obtain ⟨-, behind, hbehind⟩ := exists_arrow h
      have hhead (rest : Text) := Head.ofCursor_quoted hq col rest
      rw [hhead] at hbehind
      obtain ⟨spaces, hspaces, hpassSpaces, -⟩ := Cursor.exists_skipSpaces ⟨col + q.length, rest⟩
      have hpass := hpassSpaces.trans (Cursor.acceptText?_eq_some_iff.mp hbehind)
      refine ⟨q, spaces, behind.rest, ?_, hspaces, fun rest' _ => ?_⟩
      · rw [← List.append_assoc spaces]
        exact congrArg (q ++ ·) hpass.rest
      · rw [hhead, hhead]
  | none =>
      obtain ⟨i, hfind⟩ := exists_find?_arrow h hquoted
      obtain ⟨up, rest, hrest, -, hnone⟩ := Name.exists_noArrow hfind
      obtain ⟨col, s⟩ := c
      obtain rfl : s = up ++ (Name.arrow ++ rest) := hrest
      have hopen := Cursor.quotedName?_eq_none_iff.mp hquoted
      refine ⟨up, [], rest, rfl, by simp, fun rest' hopen' => ?_⟩
      rw [Head.ofCursor_bare hnone hopen]
      exact Head.ofCursor_bare hnone (hopen' hopen) col

/-- Both names are read up to the closing quote of the second one, and what is left is the number. -/
theorem exists_upToQuote {c : Cursor} {label : Option LabelClause} {clause : OverrideClause} {line : Text}
    (h : (ofBody c label).override = some clause) (hquoted : clause.IsQuoted line) :
    ∃ names rest : Text, c.rest = names ++ rest ∧ names.getLast? = some '"' ∧
      clause.name.span.stop = c.col + names.length ∧
      ∀ (rest' : Text) (label' : Option LabelClause),
        (Name.quotedLength? c.rest = none → Name.quotedLength? (names ++ rest') = none) →
        ofBody ⟨c.col, names ++ rest'⟩ label' = ⟨(ofBody c label).name, some clause,
          maturityAt ⟨c.col + names.length, rest'⟩, label'⟩ := by
  obtain ⟨col, s⟩ := c
  obtain ⟨up, spaces, behind, hrest, hspaces, hhead⟩ := exists_upToArrow h
  obtain rfl : s = up ++ (spaces ++ (Name.arrow ++ behind)) := hrest
  obtain ⟨gap, hgap, hpassGap, hstop⟩ := Cursor.exists_skipSpaces ⟨0, behind⟩
  obtain ⟨second, hsecond⟩ : ∃ second, (⟨0, behind⟩ : Cursor).skipSpaces.rest = second := ⟨_, rfl⟩
  obtain rfl : behind = gap ++ second := hsecond ▸ hpassGap.rest
  rw [hsecond] at hstop
  have hbody := ofBody_of_arrow spaces (hhead (gap ++ second) id) rfl hspaces hgap hstop label
  dsimp only at hbody
  rw [hbody] at h
  obtain rfl := Option.some.inj h
  obtain ⟨q, rest, hq, hrest, hname⟩ := Cursor.quotedName?_eq_some_iff.mp (quotedName?_of_isQuoted hquoted)
  obtain rfl : second = q ++ rest := hrest
  have hq' : ∀ r : Text, ∀ ch ∈ (q ++ r).head?, isSpace ch = false := by
    intro r ch hch
    rw [hq.head?_append] at hch
    obtain rfl := Option.some.inj hch
    rfl
  have hcol : col + (up ++ (spaces ++ (Name.arrow ++ (gap ++ q)))).length
      = col + up.length + spaces.length + 2 + gap.length + q.length := by
    simp only [List.length_append, Name.arrow, List.length_cons, List.length_nil]
    omega
  refine ⟨up ++ (spaces ++ (Name.arrow ++ (gap ++ q))), rest, ?_, ?_, ?_, fun rest' label' hopen => ?_⟩
  · simp only [List.append_assoc]
  · simp only [List.getLast?_append, hq.getLast?, Option.some_or]
  · rw [hcol, hname]
  · have hsplit : up ++ (spaces ++ (Name.arrow ++ (gap ++ q))) ++ rest'
        = up ++ (spaces ++ (Name.arrow ++ (gap ++ (q ++ rest')))) := by
      simp only [List.append_assoc]
    rw [hsplit] at hopen ⊢
    rw [ofBody_of_arrow spaces (hhead _ hopen) rfl hspaces hgap (hq' rest') label',
      Head.ofOverride_quoted hq, hname, hcol]
    rfl

/-- A number that was read as a word of its own is a literal behind spaces. -/
theorem exists_of_maturityAt {col : Nat} {rest : Text} {number : Number}
    (h : maturityAt ⟨col, rest⟩ = some number) : ∃ gap literal trailing : Text,
      rest = gap ++ (literal ++ trailing) ∧ (∀ ch ∈ gap, isSpace ch = true) ∧
      Decimal.isLiteral literal = true ∧
      number = ⟨⟨col + gap.length, col + gap.length + literal.length⟩, Decimal.value literal⟩ := by
  obtain ⟨gap, hgap, hpassGap, -⟩ := Cursor.exists_skipSpaces ⟨col, rest⟩
  unfold maturityAt at h
  split at h
  · next found after hnumber =>
      obtain ⟨literal, hliteral, hpass, rfl⟩ := Cursor.exists_literal_of_number? hnumber
      split at h
      · obtain rfl := Option.some.inj h
        refine ⟨gap, literal, after.rest, ?_, hgap, hliteral, ?_⟩
        · rw [← hpass.rest]
          exact hpassGap.rest
        · rw [hpass.col, hpassGap.col]
      · simp at h
  · simp at h

/-- A text that does not start with a number leaves none behind a space. -/
theorem maturityAt_space {put : Text} (hput : ∀ ch ∈ put.head?, ch = 'l') (col : Nat) :
    maturityAt ⟨col, ' ' :: put⟩ = none := by
  have hskip : (⟨col, ' ' :: put⟩ : Cursor).skipSpaces = ⟨col + 1, put⟩ := by
    refine Cursor.skipSpaces_eq (.mk_append col [' '] put) isSpace_of_mem_space fun ch hch => ?_
    rw [hput ch hch]
    rfl
  have hnumber : (⟨col + 1, put⟩ : Cursor).number? = none := by
    cases put with
    | nil => rfl
    | cons ch put =>
        obtain rfl := hput ch rfl
        rfl
  simp only [maturityAt, hskip, hnumber]

/-- The line goes on behind `front`, where a clause that is missing is put. What is put there behind a space,
and starts neither with a space nor with a number, changes neither the names nor the number. -/
structure CutAtPoint (e : Evolution) (col : Nat) (front behind : Text) : Prop where
  insertPoint : e.insertPoint = col + front.length
  last : ∃ ch, front.getLast? = some ch ∧ ch ≠ '\\'
  ofBody_put : ∀ (put : Text) (label : Option LabelClause), (∀ ch ∈ put.head?, ch = 'l') →
    (Name.quotedLength? (front ++ behind) = none → Name.quotedLength? (front ++ ' ' :: put) = none) →
    ofBody ⟨col, front ++ ' ' :: put⟩ label = { e with label }

/-- Every line with a quoted override can be cut where a clause that is missing is put. -/
theorem exists_cutAtPoint {c : Cursor} {label : Option LabelClause} {clause : OverrideClause} {line : Text}
    (h : (ofBody c label).override = some clause) (hquoted : clause.IsQuoted line) :
    ∃ front behind, c.rest = front ++ behind ∧ CutAtPoint (ofBody c label) c.col front behind := by
  obtain ⟨col, s⟩ := c
  obtain ⟨names, rest, hrest, hlast, hstop, hnames⟩ := exists_upToQuote h hquoted
  obtain rfl : s = names ++ rest := hrest
  have hbody := hnames rest label id
  dsimp only at hbody hnames ⊢
  cases hmaturity : maturityAt ⟨col + names.length, rest⟩ with
  | none =>
      rw [hmaturity] at hbody
      refine ⟨names, rest, rfl, ?_, ⟨'"', hlast, by decide⟩, fun put label' hput hopen => ?_⟩
      · rw [hbody]
        exact hstop
      · rw [hnames _ _ hopen, maturityAt_space hput, hbody]
  | some number =>
      obtain ⟨gap, literal, trailing, rfl, hgap, hliteral, rfl⟩ := exists_of_maturityAt hmaturity
      rw [hmaturity] at hbody
      have hsplit (t : Text) : names ++ (gap ++ (literal ++ t)) = names ++ (gap ++ literal) ++ t := by
        simp only [List.append_assoc]
      refine ⟨names ++ (gap ++ literal), trailing, hsplit trailing, ?_, ?_, fun put label' _ hopen => ?_⟩
      · rw [hbody]
        simp only [Evolution.insertPoint, List.length_append, Nat.add_assoc]
      · obtain ⟨last, hlast⟩ : ∃ last, literal.getLast? = some last :=
          Option.ne_none_iff_exists'.mp fun hnil =>
            Decimal.literal_ne_nil hliteral (List.getLast?_eq_none_iff.mp hnil)
        refine ⟨last, by simp only [List.getLast?_append, hlast, Option.some_or], ?_⟩
        rintro rfl
        exact Decimal.not_mem_literal hliteral rfl (List.mem_of_getLast? hlast)
      · have hblank : StartsBlank (' ' :: put) := by
          intro ch hch
          obtain rfl := Option.some.inj hch
          rfl
        rw [← hsplit, ← hsplit] at hopen
        rw [← hsplit, hnames _ _ hopen, maturityAt_of_literal hgap hliteral hblank, hbody]

namespace CutAtPoint

variable {e : Evolution} {col : Nat} {front behind : Text}

theorem front_ne_nil (h : CutAtPoint e col front behind) : front ≠ [] := by
  obtain ⟨ch, hlast, -⟩ := h.last
  rintro rfl
  simp at hlast

theorem getLast?_ne (h : CutAtPoint e col front behind) : front.getLast? ≠ some '\\' := by
  obtain ⟨ch, hlast, hne⟩ := h.last
  simpa [hlast] using hne

theorem clip_insertPoint (h : CutAtPoint e col front behind) :
    (⟨col, front ++ behind⟩ : Cursor).clip e.insertPoint = ⟨col, front⟩ := by
  rw [h.insertPoint]
  exact (Cursor.Passes.mk_append col front behind).clip_eq

end CutAtPoint

end Evolution

end WardleyMap
