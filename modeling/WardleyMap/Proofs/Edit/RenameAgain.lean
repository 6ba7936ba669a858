import WardleyMap.Proofs.Edit.Keyword
import WardleyMap.Proofs.Statement.ReadBack

/-!
# Renaming a placement twice

Renaming writes the new name over the characters that the old one took, so the same call made again leaves
the line alone if it finds the name there, or if it replaces the written form by itself. It does neither
where the reader takes more or fewer characters than were written. `Placement.Settles` puts this in terms
of the line before the first call. The old name bounds what a bare new one can run into: words behind an
old name in quotes become part of a bare one, and nothing in front of an empty old name keeps the new one
apart from the keyword.
-/

namespace WardleyMap

namespace Placement

variable {kind : Kind} {line opening before written rest newName : Text} {p : Placement}

/-- The line goes on behind `opening` with the name of the placement: blanks in front of it, its written form,
and what follows. -/
structure Names (line : Text) (p : Placement) (opening before written rest : Text) : Prop where
  line_eq : line = opening ++ (before ++ (written ++ rest))
  span : p.name.span
    = ⟨opening.length + before.length, opening.length + before.length + written.length⟩
  written : Written before written rest p.name.value

/-- The name of a placement always has the parts that `Names` asks for. -/
theorem exists_names {lead gap : Text} {c : Cursor} (h : kind.Opens line lead gap c) :
    ∃ before written rest,
      Names line (ofCursor kind c) (lead ++ (kind.keyword ++ gap)) before written rest := by
  obtain ⟨hline, hcol⟩ := Cursor.passes_ofLine_iff.mp h.passes
  obtain ⟨before, written, rest, value, hrest, hwritten⟩ := exists_written c.rest
  have hpass : c.Passes (before ++ written) ⟨c.col + (before ++ written).length, rest⟩ :=
    ⟨by rw [hrest, List.append_assoc], rfl⟩
  have hname : (ofCursor kind c).name
      = ⟨⟨c.col + before.length, c.col + before.length + written.length⟩, value⟩ := by
    refine (hwritten.nameAt_eq hpass rfl).trans ?_
    rw [List.length_append, Nat.add_assoc]
  refine ⟨before, written, rest, ⟨hrest ▸ hline, ?_, ?_⟩⟩
  · rw [hname, hcol]
  · rw [hname]
    exact hwritten

namespace Names

theorem applyAll_name (h : Names line p opening before written rest) (new : Text) :
    Replacement.applyAll [⟨p.name.span, new⟩] line = opening ++ (before ++ (new ++ rest)) := by
  rw [h.span, h.line_eq, ← List.append_assoc, ← List.append_assoc opening]
  exact Replacement.applyAll_singleton List.length_append.symm (by rw [List.length_append])

theorem take_start (h : Names line p opening before written rest) :
    Span.slice ⟨opening.length, p.name.span.start⟩ line = before := by
  rw [Span.slice, h.span, h.line_eq, ← List.append_assoc, ← List.length_append, List.take_left,
    List.drop_left]

theorem drop_stop (h : Names line p opening before written rest) :
    line.drop p.name.span.stop = rest := by
  rw [h.span, h.line_eq, ← List.append_assoc, ← List.append_assoc, ← List.length_append,
    ← List.length_append, List.drop_left]

/-- Renaming leaves the line alone if the name is there already, in meaning or in writing. -/
theorem applyAll_rename_eq_self_iff (h : Names line p opening before written rest)
    (hblank : newName.isAllBlank = false) :
    Replacement.applyAll (p.rename newName) line = line ↔
      p.name.value = newName ∨ written = Name.encode newName := by
  unfold rename
  by_cases hvalue : p.name.value = newName
  · rw [if_pos (.inr hvalue)]
    exact iff_of_true (Replacement.applyAll_nil line) (.inl hvalue)
  · rw [if_neg (by simp [hblank, hvalue]), h.applyAll_name, or_iff_right hvalue]
    rw [h.line_eq, List.append_cancel_left_eq, List.append_cancel_left_eq, List.append_cancel_right_eq]
    exact eq_comm

/-- A name that does not end where the keyword ends is separated from it. -/
theorem separated {c : Cursor} {lead gap : Text}
    (hnames : Names line p (lead ++ (kind.keyword ++ gap)) before written rest)
    (hopens : kind.Opens line lead gap c.skipSpaces) (hgap : c.Passes gap c.skipSpaces)
    (h : ofLine? kind line = some p) (hopen : kind.open? line = some c) (hstop : p.name.span.stop ≠ c.col) :
    gap ≠ [] ∨ before ≠ [] := by
  by_contra hnone
  simp only [not_or, not_not] at hnone
  obtain ⟨rfl, rfl⟩ := hnone
  have hstart : p.name.span.start ≤ c.col := by
    rw [hnames.span, ← (Cursor.passes_ofLine_iff.mp hopens.passes).2, hgap.col]
    exact Nat.le_refl _
  rw [(name_eq_nil_of_start h hopen hstart).1] at hstop
  exact hstop rfl

end Names

/-- Renaming the placement to `newName` once is renaming it twice. There is nothing to do, or the new name
does not run into the keyword, which ends at `c`, and reads back between what surrounded the old one. -/
def Settles (p : Placement) (c : Cursor) (line newName : Text) : Prop :=
  newName.isAllBlank = true ∨ p.name.value = newName ∨
    p.name.span.stop ≠ c.col ∧
      ReadsBack (Span.slice ⟨c.skipSpaces.col, p.name.span.start⟩ line) newName
        (line.drop p.name.span.stop)

/-- If something separates the name from the keyword, the line with the new name opens as before. -/
theorem exists_names_rename {c : Cursor} {lead gap : Text} (hopens : kind.Opens line lead gap c)
    (h : Names line (ofCursor kind c) (lead ++ (kind.keyword ++ gap)) before written rest)
    (hne : gap ≠ [] ∨ before ≠ []) (hblank : newName.isAllBlank = false) :
    ∃ p' before' written' rest', ofLine? kind
        (Replacement.applyAll [⟨(ofCursor kind c).name.span, Name.encode newName⟩] line) = some p' ∧
      Names (Replacement.applyAll [⟨(ofCursor kind c).name.span, Name.encode newName⟩] line) p'
        (lead ++ (kind.keyword ++ gap)) before' written' rest' := by
  have hrest : c.rest = before ++ (written ++ rest) := by
    have hline := (Cursor.passes_ofLine_iff.mp hopens.passes).1
    exact List.append_cancel_left (hline.symm.trans h.line_eq)
  have hopens' : kind.Opens
      (lead ++ (kind.keyword ++ gap) ++ (before ++ (Name.encode newName ++ rest))) lead gap
      ⟨c.col, before ++ (Name.encode newName ++ rest)⟩ := by
    cases before with
    | nil =>
        refine hopens.of_rest (fun ch hch => ?_) (.inl (hne.resolve_right (by simp)))
        exact not_isSpace_of_not_isBlank (Name.head_encode_append hblank rest ch hch)
    | cons ch before =>
        refine hopens.of_rest ?_ ?_
        · simpa [hrest] using hopens.head
        · simpa [hrest] using hopens.boundary
  rw [h.applyAll_name]
  obtain ⟨before', written', rest', hnames⟩ := exists_names hopens'
  exact ⟨_, before', written', rest', ofLine?_of_opens hopens', hnames⟩

/-- The condition is read off the line as it was, and decides about the line as it has become. -/
theorem settles_iff {c : Cursor} (h : ofLine? kind line = some p) (hopen : kind.open? line = some c) :
    p.Settles c line newName ↔
      ∃ p', ofLine? kind (Replacement.applyAll (p.rename newName) line) = some p' ∧
        Replacement.applyAll (p'.rename newName) (Replacement.applyAll (p.rename newName) line)
          = Replacement.applyAll (p.rename newName) line := by
  by_cases hkept : newName.isAllBlank = true ∨ p.name.value = newName
  · have hplan : p.rename newName = [] := if_pos hkept
    refine iff_of_true (hkept.elim .inl fun hvalue => .inr (.inl hvalue)) ⟨p, ?_, ?_⟩
    · rw [hplan, Replacement.applyAll_nil, h]
    · rw [hplan, Replacement.applyAll_nil, Replacement.applyAll_nil]
  · obtain ⟨hblank, hvalue⟩ := not_or.mp hkept
    have hplan : p.rename newName = [⟨p.name.span, Name.encode newName⟩] := if_neg hkept
    rw [Bool.not_eq_true] at hblank
    rw [Settles, or_iff_right (by simp [hblank]), or_iff_right hvalue]
    by_cases hstop : p.name.span.stop = c.col
    · -- the name is put right behind the keyword, which is none any more
      refine iff_of_false (fun hsettles => hsettles.1 hstop) ?_
      rintro ⟨p', hp', -⟩
      obtain ⟨c', hopen', -⟩ := Option.map_eq_some_iff.mp hp'
      have hopened : (kind.open? (Replacement.applyAll (p.rename newName) line)).isSome = true := by
        rw [hopen']
        rfl
      exact (isSome_open?_rename h hopen).mp hopened ⟨hstop, hblank⟩
    · rw [and_iff_right hstop]
      obtain ⟨lead, gap, hopens, hgap⟩ := Kind.exists_opens hopen
      obtain rfl : ofCursor kind c.skipSpaces = p :=
        Option.some.inj ((ofLine?_of_opens hopens).symm.trans h)
      obtain ⟨before, written, rest, hnames⟩ := exists_names hopens
      have hcol := (Cursor.passes_ofLine_iff.mp hopens.passes).2
      have hne := hnames.separated hopens hgap h hopen hstop
      obtain ⟨p', before', written', rest', hp', hnames'⟩ := exists_names_rename hopens hnames hne hblank
      rw [hcol, hnames.take_start, hnames.drop_stop, hplan, hnames.applyAll_name]
      rw [hnames.applyAll_name] at hp' hnames'
      have htext := List.append_cancel_left hnames'.line_eq
      have hbefore := hnames.written.before_blank
      rw [← hnames'.written.eq_encode_iff hbefore hblank htext.symm]
      constructor
      · intro hwritten
        exact ⟨p', hp', (hnames'.applyAll_rename_eq_self_iff hblank).mpr (.inr hwritten)⟩
      · rintro ⟨p'', hp'', hsame⟩
        obtain rfl := Option.some.inj (hp'.symm.trans hp'')
        rcases (hnames'.applyAll_rename_eq_self_iff hblank).mp hsame with hvalue' | hwritten
        · exact hnames'.written.eq_encode_of_value hvalue' hbefore hblank htext.symm
        · exact hwritten

end Placement

namespace Document

variable {doc doc' : Document} {config : Config} {n : Nat} {kind : Kind} {expected newName : Text}

/-- A renaming that is made again is made, and changes nothing, exactly if the new name settles on
the line. -/
theorem edit_rename_again (h : doc.edit config n (.rename kind expected newName) = .ok doc') :
    ∃ line p c, doc.line? n = some line ∧ Placement.ofLine? kind line = some p ∧
      kind.open? line = some c ∧ ∀ expected',
        doc'.edit config n (.rename kind expected' newName) = .ok doc' ↔ p.Settles c line newName := by
  obtain ⟨hsupported, line, statement, rs, hline, hstatement, hplan, hdoc⟩ := edit_eq_ok_iff.mp h
  have hkind : kind.isPlacement = true := by
    by_contra hkind
    simp [Edit.unsupported?, hkind] at hsupported
  have hof (text : Text) : Statement.ofLine? kind text = (Placement.ofLine? kind text).map .placement :=
    Statement.ofLine?_placement hkind text
  have hfits := Edit.fits_of_plan? hstatement hplan
  rw [Edit.kind, hof] at hstatement
  obtain ⟨p, hp, rfl⟩ := Option.map_eq_some_iff.mp hstatement
  obtain rfl : p.rename newName = rs := Option.some.inj hplan
  obtain ⟨c, hopen, -⟩ := Option.map_eq_some_iff.mp hp
  refine ⟨line, p, c, hline, hp, hopen, fun expected' => ?_⟩
  have hline' := line?_of_withLine? hdoc hline hfits
  have hsupported' : (Edit.rename kind expected' newName).unsupported? = none := hsupported
  rw [Placement.settles_iff hp hopen]
  constructor
  · intro hagain
    obtain ⟨-, line', statement', rs', hread, hstatement', hplan', -⟩ := edit_eq_ok_iff.mp hagain
    have hsame := (edit_eq_ok_self_iff hsupported' hread hstatement' hplan').mp hagain
    obtain rfl := Option.some.inj (hline'.symm.trans hread)
    rw [Edit.kind, hof] at hstatement'
    obtain ⟨p', hp', rfl⟩ := Option.map_eq_some_iff.mp hstatement'
    obtain rfl : p'.rename newName = rs' := Option.some.inj hplan'
    exact ⟨p', hp', hsame⟩
  · rintro ⟨p', hp', hsame⟩
    have hstatement' := hof (Replacement.applyAll (p.rename newName) line)
    rw [hp', Option.map_some] at hstatement'
    exact edit_eq_self hsupported' hline' hstatement' rfl hsame

/-- A name that holds a bracket is found again behind the quotes that were put around it. -/
theorem edit_rename_again_bracket :
    let doc := ofText "component A [0.5, 0.5]".toList
    let doc' := ofText "component \"x[y\" [0.5, 0.5]".toList
    doc.edit {} 1 (.rename .component ['A'] ['x', '[', 'y']) = .ok doc' ∧
      doc'.edit {} 1 (.rename .component ['A'] ['x', '[', 'y']) = .ok doc' := by
  intro doc doc'
  have hedit : doc.edit {} 1 (.rename .component ['A'] ['x', '[', 'y']) = .ok doc' := by decide +kernel
  obtain ⟨line, p, c, hline, hp, hopen, hagain⟩ := edit_rename_again hedit
  obtain rfl : "component A [0.5, 0.5]".toList = line := Option.some.inj hline
  obtain rfl : (⟨9, " A [0.5, 0.5]".toList⟩ : Cursor) = c := Option.some.inj hopen
  have hspan : (Placement.ofLine? .component "component A [0.5, 0.5]".toList).map (·.name.span)
      = some ⟨10, 11⟩ := by decide +kernel
  rw [hp] at hspan
  replace hspan : p.name.span = ⟨10, 11⟩ := Option.some.inj hspan
  refine ⟨hedit, (hagain ['A']).mpr (.inr (.inr ?_))⟩
  rw [hspan]
  refine ⟨by decide, ?_⟩
  exact Placement.readsBack_of_blank (by decide) (by decide) (by decide)

/-- A bare name in the place of a quoted one takes in the words behind it, and loses them when it is
given again. -/
theorem edit_rename_again_words :
    let doc := ofText "component \"A\" draft".toList
    let doc' := ofText "component B draft".toList
    let doc'' := ofText "component B".toList
    doc.edit {} 1 (.rename .component ['A'] ['B']) = .ok doc' ∧
      doc'.edit {} 1 (.rename .component ['A'] ['B']) = .ok doc'' ∧ doc'' ≠ doc' := by
  decide +kernel

end Document

end WardleyMap
