import WardleyMap.Proofs.Statement.Columns

/-!
# What the spans of a statement are

The spans of a statement follow one another in the order in which its parts are written, without an overlap,
and each of them shows what was read there: a number is the value of the literal at its span, and a
name is the text at its span, or what that text stands for if it is a quoted name. The parts of an
`evolve` line are found by searches from both ends. What keeps them apart is that each search goes on from
where the one before it stopped and that all of them stop in front of the label.
-/

namespace WardleyMap

/-! ### Spans in order -/

namespace Span

/-- The spans follow one another from column `start` to column `stop`. None of them ends before it starts,
and no two of them overlap. -/
def InOrder (start : Nat) : (spans : List Span) → (stop : Nat) → Prop
  | [], stop => start ≤ stop
  | s :: spans, stop => start ≤ s.start ∧ s.start ≤ s.stop ∧ InOrder s.stop spans stop

namespace InOrder

variable {start stop col : Nat} {spans others : List Span}

theorem le (h : InOrder start spans stop) : start ≤ stop := by
  induction spans generalizing start with
  | nil => exact h
  | cons s spans ih => exact h.1.trans (h.2.1.trans (ih h.2.2))

theorem append (h : InOrder start spans col) (h' : InOrder col others stop) :
    InOrder start (spans ++ others) stop := by
  induction spans generalizing start with
  | nil =>
      cases others with
      | nil => exact Nat.le_trans h h'
      | cons s others => exact ⟨Nat.le_trans h h'.1, h'.2⟩
  | cons s spans ih => exact ⟨h.1, h.2.1, ih h.2.2⟩

theorem mono_left (h : InOrder start spans stop) (hle : col ≤ start) : InOrder col spans stop :=
  @append col stop start [] spans hle h

theorem mono_right (h : InOrder start spans stop) (hle : stop ≤ col) : InOrder start spans col := by
  have happend := @append start col stop spans [] h hle
  rwa [List.append_nil] at happend

theorem within (h : InOrder start spans stop) :
    ∀ s ∈ spans, start ≤ s.start ∧ s.start ≤ s.stop ∧ s.stop ≤ stop := by
  induction spans generalizing start with
  | nil => simp
  | cons t spans ih =>
      obtain ⟨hstart, hspan, hrest⟩ := h
      intro s hs
      rcases List.mem_cons.mp hs with rfl | hs
      · exact ⟨hstart, hspan, hrest.le⟩
      · obtain ⟨hs_start, hs_span, hs_stop⟩ := ih hrest s hs
        exact ⟨hstart.trans (hspan.trans hs_start), hs_span, hs_stop⟩

end InOrder

end Span

/-! ### Names and numbers of a line -/

/-- The number is the value of the literal that its span shows. -/
def Number.IsAt (line : Text) (number : Number) : Prop :=
  Decimal.isLiteral (number.span.slice line) = true ∧
    number.value = Decimal.value (number.span.slice line)

/-- Behind `gap`, the written form stands for the name `value`. A quoted name is decoded if nothing but
spaces precedes it, and any other form stands for itself. -/
structure Name.Reads (gap written value : Text) : Prop where
  quoted : (∀ ch ∈ gap, isSpace ch = true) → IsQuoted written → value = decode written
  bare : ¬((∀ ch ∈ gap, isSpace ch = true) ∧ IsQuoted written) → value = written

def NameToken.IsAt (line : Text) (col : Nat) (name : NameToken) : Prop :=
  Name.Reads (Span.slice ⟨col, name.span.start⟩ line) (name.span.slice line) name.value

namespace Cursor

variable {c c' : Cursor} {passed line : Text} {col stop : Nat} {number : Number} {name : NameToken}

theorem Passes.lineEnd (h : c.Passes passed c') : c'.lineEnd = c.lineEnd := by
  rw [Cursor.lineEnd, Cursor.lineEnd, h.col, h.rest, List.length_append, Nat.add_assoc]

theorem lineEnd_ofLine (line : Text) : (ofLine line).lineEnd = line.length :=
  Nat.zero_add _

theorem lineEnd_clip_le (c : Cursor) (hle : c.col ≤ stop) : (c.clip stop).lineEnd ≤ stop := by
  change c.col + (c.rest.take (stop - c.col)).length ≤ stop
  rw [List.length_take]
  omega

theorem Reaches.le_lineEnd (h : c.Reaches col) : col ≤ c.lineEnd := by
  obtain ⟨passed, c', hpass, rfl⟩ := h
  rw [← hpass.lineEnd]
  exact Nat.le_add_right _ _

theorem reaches_lineEnd (c : Cursor) : c.Reaches c.lineEnd :=
  ⟨c.rest, ⟨c.lineEnd, []⟩, ⟨(List.append_nil _).symm, rfl⟩, rfl⟩

theorem slice_of_passes {front written : Text} {c₁ c₂ : Cursor}
    (hfront : (ofLine line).Passes front c₁) (h : c₁.Passes written c₂) :
    Span.slice ⟨c₁.col, c₂.col⟩ line = written := by
  obtain ⟨hline, hcol⟩ := passes_ofLine_iff.mp (hfront.trans h)
  rw [Span.slice, hcol, hline, List.take_left, (passes_ofLine_iff.mp hfront).2, List.drop_left]

theorem Shows.col_le_start (h : c.Shows number) : c.col ≤ number.span.start :=
  h.reaches_start.le

theorem Shows.start_le_stop (h : c.Shows number) : number.span.start ≤ number.span.stop := by
  obtain ⟨passed, literal, c', hpass, -, rfl⟩ := h
  dsimp only
  rw [hpass.col, List.length_append]
  omega

theorem Shows.isAt (h : (ofLine line).Shows number) : number.IsAt line := by
  obtain ⟨passed, literal, c', hpass, hliteral, rfl⟩ := h
  have hbefore : (ofLine line).Passes passed ⟨passed.length, literal ++ c'.rest⟩ :=
    passes_ofLine_iff.mpr ⟨by rw [← List.append_assoc]; exact hpass.rest, rfl⟩
  have hcol : c'.col = passed.length + literal.length := by
    rw [(passes_ofLine_iff.mp hpass).2, List.length_append]
  have hslice : Span.slice ⟨(ofLine line).col + passed.length, c'.col⟩ line = literal := by
    rw [show (ofLine line).col + passed.length = passed.length from Nat.zero_add _]
    exact slice_of_passes hbefore ⟨rfl, hcol⟩
  exact ⟨by rw [hslice]; exact hliteral, by rw [hslice]⟩

/-- The name, which is looked for from column `col` on, is written somewhere from the cursor on and is read
as it is written. -/
def Names (c : Cursor) (col : Nat) (name : NameToken) : Prop :=
  ∃ front gap written c', c.Passes (front ++ (gap ++ written)) c' ∧ col = c.col + front.length ∧
    name.span = ⟨col + gap.length, c'.col⟩ ∧ Name.Reads gap written name.value

theorem Names.of_passes (h : c'.Names col name) (hpass : c.Passes passed c') : c.Names col name := by
  obtain ⟨front, gap, written, c'', hname, rfl, hspan, hreads⟩ := h
  refine ⟨passed ++ front, gap, written, c'', ?_, ?_, hspan, hreads⟩
  · rw [List.append_assoc]
    exact hpass.trans hname
  · rw [hpass.col, List.length_append, Nat.add_assoc]

theorem Names.of_clip (h : (c.clip stop).Names col name) : c.Names col name := by
  obtain ⟨front, gap, written, c', hname, hcol, hspan, hreads⟩ := h
  obtain ⟨c'', hname', hcol'⟩ := hname.of_clip
  exact ⟨front, gap, written, c'', hname', hcol, by rw [hspan, hcol'], hreads⟩

/-- From the start of the line, being written somewhere is being written where the span says. -/
theorem Names.isAt (h : (ofLine line).Names col name) : name.IsAt line col := by
  obtain ⟨front, gap, written, c', hname, hcol, hspan, hreads⟩ := h
  obtain rfl : col = front.length := hcol.trans (Nat.zero_add _)
  obtain ⟨hline, hstop⟩ := passes_ofLine_iff.mp hname
  have hfront : (ofLine line).Passes front ⟨front.length, gap ++ (written ++ c'.rest)⟩ :=
    passes_ofLine_iff.mpr ⟨by rw [hline]; simp only [List.append_assoc], rfl⟩
  have hgap := Passes.mk_append front.length gap (written ++ c'.rest)
  have hwritten : (⟨front.length + gap.length, written ++ c'.rest⟩ : Cursor).Passes written c' :=
    ⟨rfl, by rw [hstop]; simp only [List.length_append, Nat.add_assoc]⟩
  have hslice : name.span.slice line = written := by
    rw [hspan]
    exact slice_of_passes (hfront.trans hgap) hwritten
  have hbetween : Span.slice ⟨front.length, name.span.start⟩ line = gap := by
    rw [hspan]
    exact slice_of_passes hfront hgap
  rw [NameToken.IsAt, hslice, hbetween]
  exact hreads

theorem names_of_quotedName? (h : c.skipSpaces.quotedName? = some name) : c.Names c.col name := by
  obtain ⟨q, rest, hquoted, hrest, rfl⟩ := quotedName?_eq_some_iff.mp h
  obtain ⟨gap, hgap, hpass, -⟩ := exists_skipSpaces c
  refine ⟨[], gap, q, ⟨c.skipSpaces.col + q.length, rest⟩, hpass.trans ⟨hrest, rfl⟩, rfl, ?_, ?_⟩
  · dsimp only
    rw [hpass.col]
  · exact ⟨fun _ _ => rfl, fun hnot => absurd ⟨hgap, hquoted⟩ hnot⟩

/-- A bare name stands for itself, since no closed quotes open there. -/
theorem names_bareName (h : c.skipSpaces.quotedName? = none) (stop : Nat) :
    c.Names c.col (c.skipSpaces.bareName stop) := by
  obtain ⟨before, written, after, htext, -, hname⟩ := exists_bareName c.skipSpaces stop
  obtain ⟨gap, hgap, hpass, hhead⟩ := exists_skipSpaces c
  obtain ⟨behind, hrest⟩ : ∃ behind, c.skipSpaces.rest = before ++ (written ++ behind) := by
    refine ⟨after ++ c.skipSpaces.rest.drop (stop - c.skipSpaces.col), ?_⟩
    rw [← List.append_assoc, ← List.append_assoc, ← htext, List.take_append_drop]
  have hwritten : c.skipSpaces.Passes (before ++ written)
      ⟨c.skipSpaces.col + (before ++ written).length, behind⟩ :=
    ⟨hrest.trans (List.append_assoc ..).symm, rfl⟩
  -- what stands before the name does not start with a space, so if it is all spaces the name starts at once
  have hnot : ¬((∀ ch ∈ gap ++ before, isSpace ch = true) ∧ Name.IsQuoted written) := by
    rintro ⟨hspace, hquoted⟩
    cases before with
    | nil =>
        rw [quotedName?_eq_none_iff, hrest, List.nil_append, hquoted.quotedLength?_append] at h
        exact absurd h (by simp)
    | cons ch before =>
        have hch := hhead ch (by rw [hrest]; rfl)
        rw [hspace ch (by simp)] at hch
        exact absurd hch (by decide)
  refine ⟨[], gap ++ before, written,
    ⟨c.skipSpaces.col + (before ++ written).length, behind⟩, ?_, rfl, ?_, ?_⟩
  · rw [List.nil_append, List.append_assoc]
    exact hpass.trans hwritten
  · rw [hname, hpass.col]
    simp only [List.length_append, Nat.add_assoc]
  · rw [hname]
    exact ⟨fun hspace hquoted => absurd ⟨hspace, hquoted⟩ hnot, fun _ => rfl⟩

/-- Skipping the spaces and cutting the text off behind them can be done in either order. -/
theorem skipSpaces_clip (h : c.skipSpaces.col ≤ stop) :
    (c.clip stop).skipSpaces = c.skipSpaces.clip stop := by
  obtain ⟨gap, hgap, hpass, hhead⟩ := exists_skipSpaces c
  have hcol := hpass.col
  refine skipSpaces_eq ⟨?_, hcol⟩ hgap fun ch hch => hhead ch ?_
  · change c.rest.take (stop - c.col) = gap ++ c.skipSpaces.rest.take (stop - c.skipSpaces.col)
    rw [hpass.rest, List.take_append, List.take_of_length_le (by omega), hcol, Nat.sub_sub]
  · change ch ∈ (c.skipSpaces.rest.take (stop - c.skipSpaces.col)).head? at hch
    rw [List.head?_take] at hch
    split at hch
    · simp at hch
    · exact hch

end Cursor

/-! ### Clauses -/

/-- The spans of a row of numbers follow one another. -/
theorem Field.inOrder_numbers (col : Nat) (fs : List Field) :
    Span.InOrder col ((numbers col fs).map Number.span) (col + (join fs).length) := by
  induction fs generalizing col with
  | nil => exact Nat.le_refl col
  | cons f fs ih =>
      have htext := f.length_le_text
      refine ⟨Nat.le_add_right _ _, Nat.le_add_right _ _, ?_⟩
      change Span.InOrder (col + f.before.length + f.literal.length)
        ((numbers (col + f.text.length + 1) fs).map Number.span) _
      rw [join_cons, List.length_append]
      cases fs with
      | nil =>
          change col + f.before.length + f.literal.length ≤ _
          omega
      | cons g fs =>
          refine ((ih (col + f.text.length + 1)).mono_left (by omega)).mono_right ?_
          simp only [joinTail, List.length_cons]
          omega

namespace Cursor

variable {c c' : Cursor} {n : Nat}

/-- A bracket spans what was passed, with its numbers in it. -/
theorem inOrder_bracket {bracket : Bracket} (h : c.bracket? (n + 1) = some (bracket, c')) :
    bracket.span = ⟨c.col, c'.col⟩ ∧
      Span.InOrder c.col (bracket.values.map Number.span) c'.col := by
  obtain ⟨fs, -, hpass, rfl⟩ := bracket?_eq_some_iff.mp h
  have hlength : (Field.bracketed fs).length = 1 + (Field.join fs).length + 1 := by
    rw [Field.bracketed, List.length_cons, List.length_append, List.length_singleton]
    omega
  refine ⟨?_, ?_⟩
  · rw [Field.bracket, hpass.col]
  · refine ((Field.inOrder_numbers (c.col + 1) fs).mono_left (by omega)).mono_right ?_
    rw [hpass.col, hlength]
    omega

/-- A label stands behind the cursor, with its numbers in it. -/
theorem inOrder_label {label : LabelClause} (h : c.label? = some label) :
    Span.InOrder c.col [label.span] c.lineEnd ∧
      Span.InOrder label.span.start [label.dx.span, label.dy.span] label.span.stop := by
  obtain ⟨before, gap, f, g, rest, -, hrest, rfl, -⟩ := exists_beforeLabel h
  have hlength : (Field.labelled gap [f, g]).length
      = 5 + gap.length + 1 + (Field.join [f, g]).length + 1 := by
    simp only [Field.labelled, Field.bracketed, List.length_append, List.length_cons, List.length_nil]
    omega
  have hend : c.lineEnd
      = c.col + before.length + (Field.labelled gap [f, g]).length + rest.length := by
    rw [lineEnd, hrest, List.length_append, List.length_append]
    omega
  have hnumbers := Field.inOrder_numbers (c.col + before.length + 5 + gap.length + 1) [f, g]
  refine ⟨⟨Nat.le_add_right _ _, Nat.le_add_right _ _, ?_⟩, ?_⟩
  · change c.col + before.length + (Field.labelled gap [f, g]).length ≤ c.lineEnd
    omega
  · change Span.InOrder (c.col + before.length) _
      (c.col + before.length + (Field.labelled gap [f, g]).length)
    exact (hnumbers.mono_left (by omega)).mono_right (by omega)

theorem inOrder_labels (c : Cursor) :
    Span.InOrder c.col (c.label?.toList.map LabelClause.span) c.lineEnd := by
  cases hlabel : c.label? with
  | some label => exact (inOrder_label hlabel).1
  | none => exact Nat.le_add_right _ _

end Cursor

end WardleyMap
