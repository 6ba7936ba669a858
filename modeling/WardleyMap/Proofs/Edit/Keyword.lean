import WardleyMap.Proofs.Edit.Boundary

/-!
# What an edit leaves of the keyword

After an edit the line still holds its statement if the keyword is still one. Nearly all edits leave the
character behind it alone or put a space there. Two do not: a name that is written where an empty one
stood, and the deletion of an override behind an empty name. `Edit.RunsInto` says when these put something
behind the keyword that prolongs it, and `Document.edit_locate_iff` that nothing else takes the statement
off its line.
-/

namespace WardleyMap

/-- The edit puts something behind the keyword, which ends at column `k`, that prolongs the keyword. Either
way an empty name ends there: it is given a first name or an override, or it loses its override and what
follows that comes to stand behind the keyword. -/
def Edit.RunsInto (edit : Edit) (k : Nat) (line : Text) (statement : Statement) : Prop :=
  match edit, statement with
  | rename _ _ newName, .placement p => p.name.span.stop = k ∧ newName.isAllBlank = false
  | setOverride _ newName, .evolution e =>
    e.name.span.stop = k ∧
      match e.override with
      | none => newName.isAllBlank = false
      | some clause =>
        newName.isAllBlank = true ∧ ¬EndsKeyword (line.drop clause.name.span.stop)
  | _, _ => False

/-- An annotation is read by its number, so what stands behind the points may be anything. -/
theorem Annotation.isSome_ofLine?_take_append {line : Text} {a : Annotation} {points : Span}
    (h : ofLine? line = some a) (hpoints : a.coordinates = some points) (rest : Text) :
    (ofLine? (line.take points.stop ++ rest)).isSome = true := by
  obtain ⟨c, hopen, h⟩ := Option.bind_eq_some_iff.mp h
  obtain ⟨lead, gap, hopens, -⟩ := Kind.exists_opens hopen
  obtain ⟨⟨number, c₁⟩, hnumber, rfl⟩ := Option.map_eq_some_iff.mp h
  obtain ⟨literal, hliteral, hpassNumber, -⟩ := Cursor.exists_literal_of_number? hnumber
  obtain ⟨inner, hinner, hpassInner, -⟩ := Cursor.exists_skipSpaces c₁
  obtain ⟨passed, c', hpass, hlast, rfl⟩ := exists_passes_points? hpoints
  obtain ⟨inside, hopenBracket, -⟩ := Option.bind_eq_some_iff.mp hpoints
  obtain ⟨tail, rfl⟩ : ∃ tail, passed = '[' :: tail := by
    obtain ⟨ch, tail, rfl⟩ := List.exists_cons_of_ne_nil (show passed ≠ [] by rintro rfl; simp at hlast)
    have hsame := (Cursor.accept?_eq_some_iff.mp hopenBracket).rest.symm.trans hpass.rest
    exact ⟨tail, by rw [(List.cons.inj hsame).1]⟩
  obtain ⟨hline, hcol⟩ :=
    Cursor.passes_ofLine_iff.mp (hopens.passes.trans (hpassNumber.trans (hpassInner.trans hpass)))
  have hhead : ∀ more : Text, (literal ++ more).head? = c.skipSpaces.rest.head? := by
    intro more
    obtain ⟨d, literal, rfl⟩ := List.exists_cons_of_ne_nil (Decimal.literal_ne_nil hliteral)
    rw [hpassNumber.rest]
    rfl
  have hnew : line.take c'.col ++ rest
      = lead ++ (Kind.annotation.keyword ++ gap) ++ (literal ++ (inner ++ ('[' :: tail ++ rest))) := by
    rw [hline, hcol, List.take_left]
    simp only [List.append_assoc]
  have hopens' := @Kind.Opens.of_rest _ _ _ _ _ hopens (literal ++ (inner ++ ('[' :: tail ++ rest)))
    (by rw [hhead]; exact hopens.head) (by rw [hhead]; exact hopens.boundary)
  have hstops : Decimal.Stops (inner ++ ('[' :: tail ++ rest)) :=
    Cursor.stops_of_isSpace hinner (Decimal.stops_cons (by decide) (by decide) _)
  rw [hnew, ofLine?, hopens'.open?_eq, Option.bind_some, hopens'.skipSpaces_eq, ofCursor?,
    Option.isSome_map, Cursor.number?_of_passes (.mk_append _ literal _) hliteral hstops]
  rfl

/-- The text of an annotation comes to stand behind its points, which are read before it. -/
theorem Annotation.isSome_setText {line newText : Text} {a : Annotation} {rs : List Replacement}
    (h : ofLine? line = some a) (hrs : a.setText? line newText = some rs) :
    (ofLine? (Replacement.applyAll rs line)).isSome = true := by
  obtain ⟨points, hpoints, rfl⟩ := Option.map_eq_some_iff.mp hrs
  have hkept : (ofLine? (Replacement.applyAll [] line)).isSome = true := by
    rw [Replacement.applyAll_nil, h]
    rfl
  have hwritten (new : Text) :
      (ofLine? (Replacement.applyAll [⟨⟨points.stop, line.length⟩, new⟩] line)).isSome = true := by
    have := isSome_ofLine?_take_append h hpoints (new ++ line.drop line.length)
    rwa [← List.append_assoc] at this
  dsimp only
  split
  · exact hkept
  · exact hwritten _
  · split
    · exact hkept
    · exact hwritten _
  · exact hwritten _

namespace Placement

variable {kind : Kind} {line : Text} {p : Placement} {c : Cursor}

/-- The statement is read from behind the keyword. -/
theorem columns_of_ofLine? (h : ofLine? kind line = some p) (hopen : kind.open? line = some c) :
    Columns c.skipSpaces p := by
  obtain rfl : ofCursor kind c.skipSpaces = p := by simpa [ofLine?, hopen] using h
  exact columns_ofCursor kind c.skipSpaces

theorem isSome_open?_setCoordinates {precision : Nat} {first second : Float}
    (h : ofLine? kind line = some p) (hopen : kind.open? line = some c) :
    (kind.open? (Replacement.applyAll (p.setCoordinates precision first second) line)).isSome
      = true := by
  have hcolumns := columns_of_ofLine? h hopen
  have hskip := Cursor.passes_skipSpaces c
  refine Kind.isSome_open?_writeBracket hopen (fun bracket hbracket number hnumber => ?_)
    (hcolumns.name_stop.of_passes hskip)
  exact ((hcolumns.coordinates bracket hbracket).2 number hnumber).of_passes hskip

/-- A label is written behind the coordinates, which keeps it away from the keyword. -/
theorem isSome_open?_setLabel {precision : Nat} {dx dy : Float} {rs : List Replacement}
    (h : ofLine? kind line = some p) (hopen : kind.open? line = some c)
    (hrs : p.setLabel? precision dx dy = some rs) :
    (kind.open? (Replacement.applyAll rs line)).isSome = true := by
  have hcolumns := columns_of_ofLine? h hopen
  have hskip := Cursor.passes_skipSpaces c
  unfold setLabel? at hrs
  split at hrs
  · obtain rfl := Option.some.inj hrs
    refine Kind.isSome_open?_writeLabel hopen (fun label hlabel number hnumber => ?_)
      ((reaches_insertPoint hcolumns).of_passes hskip)
    exact (hcolumns.label label hlabel number hnumber).of_passes hskip
  · simp at hrs

/-- Only an empty name starts right behind the keyword, and nothing stands before it. -/
theorem name_eq_nil_of_start (h : ofLine? kind line = some p) (hopen : kind.open? line = some c)
    (hstart : p.name.span.start ≤ c.col) : p.name.span = ⟨c.col, c.col⟩ ∧ p.name.value = [] := by
  have hcolumns := columns_of_ofLine? h hopen
  obtain ⟨-, -, -, hboundary⟩ := Kind.exists_lead hopen
  rw [(Cursor.passes_skipSpaces c).eq_of_col (hcolumns.name_start.trans hstart)] at hcolumns
  have hstart := Nat.le_antisymm hstart hcolumns.name_start
  obtain ⟨hstop, hvalue⟩ := hcolumns.name_eq_nil hboundary hstart
  exact ⟨congrArg₂ Span.mk hstart hstop, hvalue⟩

/-- A new name that is not blank runs into the keyword exactly if the old one ends where the keyword ends. -/
theorem isSome_open?_rename {newName : Text} (h : ofLine? kind line = some p)
    (hopen : kind.open? line = some c) :
    (kind.open? (Replacement.applyAll (p.rename newName) line)).isSome = true ↔
      ¬(p.name.span.stop = c.col ∧ newName.isAllBlank = false) := by
  have hcolumns := columns_of_ofLine? h hopen
  have hreach := hcolumns.name_stop.of_passes (Cursor.passes_skipSpaces c)
  unfold rename
  split
  · next hkept =>
      refine iff_of_true (Kind.isSome_open?_applyAll hopen (by simp)) ?_
      rintro ⟨hstop, hblank⟩
      obtain ⟨-, hvalue⟩ := name_eq_nil_of_start h hopen (hstop ▸ hcolumns.name_le)
      rcases hkept with hkept | hkept
      · rw [hblank] at hkept
        exact absurd hkept (by decide)
      · rw [← hkept, hvalue] at hblank
        exact absurd hblank (by decide)
  · next hwritten =>
      have hblank : newName.isAllBlank = false := by simpa using (not_or.mp hwritten).1
      by_cases hstart : p.name.span.start ≤ c.col
      · obtain ⟨hspan, -⟩ := name_eq_nil_of_start h hopen hstart
        have hsplit : Replacement.applyAll [⟨p.name.span, Name.encode newName⟩] line
            = line.take c.col ++ (Name.encode newName ++ line.drop c.col) := by
          rw [hspan]
          exact List.append_assoc ..
        rw [hsplit, Kind.isSome_open?_take_append hopen]
        exact iff_of_false (Name.not_endsKeyword_encode hblank _) fun hnot => hnot ⟨by rw [hspan], hblank⟩
      · refine iff_of_true (Kind.isSome_open?_applyAll hopen fun r hr => ?_) fun hstop => ?_
        · rw [List.mem_singleton.mp hr]
          exact ⟨Nat.lt_of_not_le hstart, hreach.of_le (Nat.le_of_not_le hstart) hcolumns.name_le⟩
        · exact hstart (hstop.1 ▸ hcolumns.name_le)

end Placement

namespace Evolution

variable {line : Text} {e : Evolution} {c : Cursor}

theorem columns_of_ofLine? (h : ofLine? line = some e) (hopen : Kind.open? .evolve line = some c) :
    Columns c.skipSpaces e := by
  obtain rfl : ofCursor c.skipSpaces = e := by simpa [ofLine?, hopen] using h
  exact columns_ofCursor c.skipSpaces

/-- A maturity is written behind a blank or over an old one, so it never prolongs the keyword. -/
theorem isSome_open?_setMaturity {precision : Nat} {maturity : Float} (h : ofLine? line = some e)
    (hopen : Kind.open? .evolve line = some c) :
    (Kind.open? .evolve (Replacement.applyAll (e.setMaturity precision maturity) line)).isSome
      = true := by
  have hcolumns := columns_of_ofLine? h hopen
  have hskip := Cursor.passes_skipSpaces c
  unfold setMaturity
  split
  · next number hnumber =>
      refine Kind.isSome_open?_writeNumbers hopen fun found hfound => ?_
      rw [List.mem_singleton.mp hfound]
      exact (hcolumns.maturity number hnumber).of_passes hskip
  · exact Kind.isSome_open?_insertion hopen ((reaches_insertPoint hcolumns).of_passes hskip) _

theorem isSome_open?_setLabel {precision : Nat} {dx dy : Float} (h : ofLine? line = some e)
    (hopen : Kind.open? .evolve line = some c) :
    (Kind.open? .evolve (Replacement.applyAll (e.setLabel precision dx dy) line)).isSome = true := by
  have hcolumns := columns_of_ofLine? h hopen
  have hskip := Cursor.passes_skipSpaces c
  obtain rfl : ofCursor c.skipSpaces = e := by simpa [ofLine?, hopen] using h
  refine Kind.isSome_open?_writeLabel hopen (fun label hlabel number hnumber => ?_)
    ((reaches_insertPoint hcolumns).of_passes hskip)
  rw [label_ofCursor] at hlabel
  exact (Cursor.shows_of_label? hlabel number hnumber).of_passes hskip

theorem isSome_open?_behindName (h : ofLine? line = some e) (hopen : Kind.open? .evolve line = some c)
    (hstop : e.name.span.stop ≠ c.col) (stop : Nat) (new : Text) :
    (Kind.open? .evolve (Replacement.applyAll [⟨⟨e.name.span.stop, stop⟩, new⟩] line)).isSome = true := by
  have hreach := (columns_of_ofLine? h hopen).name_stop.of_passes (Cursor.passes_skipSpaces c)
  refine Kind.isSome_open?_applyAll hopen fun r hr => ?_
  rw [List.mem_singleton.mp hr]
  exact ⟨Nat.lt_of_le_of_ne hreach.le (Ne.symm hstop), hreach⟩

/-- A name that ends right behind the keyword is empty, so only a blank name reverts to it. -/
theorem reverts_eq_isAllBlank (h : ofLine? line = some e) (hopen : Kind.open? .evolve line = some c)
    (hstop : e.name.span.stop = c.col) (newName : Text) :
    (newName.isAllBlank || e.name.value == newName) = newName.isAllBlank := by
  have hcolumns := columns_of_ofLine? h hopen
  rw [(Cursor.passes_skipSpaces c).eq_of_col (hstop ▸ hcolumns.name_stop.le)] at hcolumns
  rw [hcolumns.name_eq_nil hstop]
  cases newName with
  | nil => rfl
  | cons ch newName => simp

/-- A first override that is not blank runs into the keyword exactly if the name before it ends where the
keyword ends. -/
theorem isSome_open?_setOverride_of_none {newName : Text} (h : ofLine? line = some e)
    (hopen : Kind.open? .evolve line = some c) (hnone : e.override = none) :
    (Kind.open? .evolve (Replacement.applyAll (e.setOverride newName) line)).isSome = true ↔
      ¬(e.name.span.stop = c.col ∧ newName.isAllBlank = false) := by
  simp only [setOverride, hnone]
  split
  · next hrevert =>
      refine iff_of_true (Kind.isSome_open?_applyAll hopen (by simp)) ?_
      rintro ⟨hstop, hblank⟩
      rw [reverts_eq_isAllBlank h hopen hstop, hblank] at hrevert
      exact absurd hrevert (by decide)
  · next hrevert =>
      have hblank : newName.isAllBlank = false := by
        simp only [Bool.or_eq_true, not_or, Bool.not_eq_true] at hrevert
        exact hrevert.1
      by_cases hstop : e.name.span.stop = c.col
      · rw [hstop, Replacement.applyAll_insertion_eq, Kind.isSome_open?_take_append hopen]
        refine iff_of_false (fun hends => ?_) fun hnot => hnot ⟨rfl, hblank⟩
        exact absurd (hends '-' rfl) (by decide)
      · exact iff_of_true (isSome_open?_behindName h hopen hstop _ _) fun hruns => hstop hruns.1

/-- An override that is taken away lets what follows it come up to the keyword, if the name ends there. -/
theorem isSome_open?_setOverride_of_some {newName : Text} {clause : OverrideClause}
    (h : ofLine? line = some e) (hopen : Kind.open? .evolve line = some c)
    (hsome : e.override = some clause) :
    (Kind.open? .evolve (Replacement.applyAll (e.setOverride newName) line)).isSome = true ↔
      ¬(e.name.span.stop = c.col ∧ newName.isAllBlank = true ∧
        ¬EndsKeyword (line.drop clause.name.span.stop)) := by
  simp only [setOverride, hsome]
  split
  · next hrevert =>
      by_cases hstop : e.name.span.stop = c.col
      · rw [reverts_eq_isAllBlank h hopen hstop] at hrevert
        rw [hstop]
        change (Kind.open? .evolve (line.take c.col ++ [] ++ _)).isSome = true ↔ _
        rw [List.append_assoc, Kind.isSome_open?_take_append hopen]
        simp [hrevert]
      · exact iff_of_true (isSome_open?_behindName h hopen hstop _ _) fun hruns => hstop hruns.1
  · next hrevert =>
      refine iff_of_true ?_ fun hruns => hrevert (by simp [hruns.2.1])
      have hskip := Cursor.passes_skipSpaces c
      obtain ⟨hstart, hclause, hle⟩ := (columns_of_ofLine? h hopen).override clause hsome
      have hlt := Nat.lt_of_le_of_lt hskip.col_le hstart
      split
      · exact Kind.isSome_open?_applyAll hopen (by simp)
      · refine Kind.isSome_open?_applyAll hopen fun r hr => ?_
        rw [List.mem_singleton.mp hr]
        exact ⟨hlt, (hclause.of_passes hskip).of_le hlt.le hle⟩

theorem isSome_open?_setOverride {newName : Text} (h : ofLine? line = some e)
    (hopen : Kind.open? .evolve line = some c) :
    (Kind.open? .evolve (Replacement.applyAll (e.setOverride newName) line)).isSome = true ↔
      ¬(Edit.setOverride e.name.value newName).RunsInto c.col line (.evolution e) := by
  unfold Edit.RunsInto
  dsimp only
  cases hoverride : e.override with
  | none => exact isSome_open?_setOverride_of_none h hopen hoverride
  | some clause => exact isSome_open?_setOverride_of_some h hopen hoverride

end Evolution

theorem Region.isSome_open?_setEdges {kind : Kind} {line : Text} {r : Region} {c : Cursor}
    {precision : Nat} {top left bottom right : Float} (h : ofLine? kind line = some r)
    (hopen : kind.open? line = some c) :
    (kind.open? (Replacement.applyAll (r.setEdges precision top left bottom right) line)).isSome
      = true := by
  have hskip := Cursor.passes_skipSpaces c
  obtain rfl : ⟨kind, c.col, (c.skipSpaces.bracket? 4).map Prod.fst⟩ = r := by
    simpa [ofLine?, hopen] using h
  unfold setEdges insertPoint
  dsimp only
  cases hread : c.skipSpaces.bracket? 4 with
  | none => exact Kind.isSome_open?_insertion hopen (Cursor.Passes.refl c).reaches _
  | some found =>
      refine Kind.isSome_open?_writeNumbers hopen fun number hnumber => ?_
      exact (Cursor.shows_of_mem_bracket hread hnumber).of_passes hskip

namespace Edit

variable {edit : Edit} {precision : Nat} {line : Text} {rs : List Replacement} {c : Cursor}

/-- An edit of a statement of another form plans nothing. -/
theorem isSome_open?_of_nil (hopen : edit.kind.open? line = some c) (hplan : some [] = some rs) :
    (edit.kind.open? (Replacement.applyAll rs line)).isSome = true := by
  obtain rfl := Option.some.inj hplan
  exact Kind.isSome_open?_applyAll hopen (by simp)

/-- Of the edits of a placement, only one of its name can prolong the keyword. -/
theorem isSome_open?_placement_iff {p : Placement} (hp : Placement.ofLine? edit.kind line = some p)
    (hopen : edit.kind.open? line = some c) (hplan : edit.plan? precision line (.placement p) = some rs) :
    (edit.kind.open? (Replacement.applyAll rs line)).isSome = true ↔
      ¬edit.RunsInto c.col line (.placement p) := by
  cases edit with
  | rename kind name newName =>
      obtain rfl := Option.some.inj hplan
      exact Placement.isSome_open?_rename hp hopen
  | move kind name position =>
      obtain rfl := Option.some.inj hplan
      exact iff_of_true (Placement.isSome_open?_setCoordinates hp hopen) id
  | setRange name start stop =>
      obtain rfl := Option.some.inj hplan
      refine iff_of_true ?_ id
      split
      · exact Placement.isSome_open?_setCoordinates hp hopen
      · exact Placement.isSome_open?_setCoordinates hp hopen
  | setLabel kind name offset => exact iff_of_true (Placement.isSome_open?_setLabel hp hopen hplan) id
  | setOverride | moveEvolution | resize | setText => exact iff_of_true (isSome_open?_of_nil hopen hplan) id

/-- Of the edits of an evolved component, only one of its override can prolong the keyword. -/
theorem isSome_open?_evolution_iff {e : Evolution} (hkind : edit.kind = .evolve)
    (he : Evolution.ofLine? line = some e) (hopen : edit.kind.open? line = some c)
    (hplan : edit.plan? precision line (.evolution e) = some rs) :
    (edit.kind.open? (Replacement.applyAll rs line)).isSome = true ↔
      ¬edit.RunsInto c.col line (.evolution e) := by
  cases edit with
  | setOverride name newName =>
      obtain rfl := Option.some.inj hplan
      exact Evolution.isSome_open?_setOverride he hopen
  | moveEvolution name maturity =>
      obtain rfl := Option.some.inj hplan
      exact iff_of_true (Evolution.isSome_open?_setMaturity he hopen) id
  | setLabel kind name offset =>
      obtain rfl : kind = .evolve := hkind
      obtain rfl := Option.some.inj hplan
      exact iff_of_true (Evolution.isSome_open?_setLabel he hopen) id
  | rename | move | setRange | resize | setText => exact iff_of_true (isSome_open?_of_nil hopen hplan) id

theorem isSome_open?_region {r : Region} (hr : Region.ofLine? edit.kind line = some r)
    (hopen : edit.kind.open? line = some c) (hplan : edit.plan? precision line (.region r) = some rs) :
    (edit.kind.open? (Replacement.applyAll rs line)).isSome = true := by
  cases edit with
  | resize kind first second =>
      obtain rfl := Option.some.inj hplan
      exact Region.isSome_open?_setEdges hr hopen
  | rename | move | setRange | setLabel | setOverride | moveEvolution | setText =>
      exact isSome_open?_of_nil hopen hplan

theorem isSome_ofLine?_annotation {a : Annotation} (ha : Annotation.ofLine? line = some a)
    (hplan : edit.plan? precision line (Statement.annotation a) = some rs) :
    ( Annotation.ofLine? (Replacement.applyAll rs line)).isSome = true := by
  cases edit with
  | setText newText => exact Annotation.isSome_setText ha hplan
  | rename | move | setRange | setLabel | setOverride | moveEvolution | resize =>
      obtain rfl := Option.some.inj hplan
      rw [Replacement.applyAll_nil, ha]
      rfl

/-- After an edit the line is read as a statement of the kind unless the edit runs into the keyword. -/
theorem isSome_ofLine?_iff {statement : Statement} (hstatement : Statement.ofLine? edit.kind line = some statement)
    (hopen : edit.kind.open? line = some c) (hplan : edit.plan? precision line statement = some rs) :
    (Statement.ofLine? edit.kind (Replacement.applyAll rs line)).isSome = true ↔
      ¬edit.RunsInto c.col line statement := by
  have hreads := Statement.reads_of_ofLine? hstatement
  cases statement with
  | placement p =>
      rw [Statement.isSome_ofLine? (Kind.ne_annotation_of_isPlacement hreads.1)]
      exact isSome_open?_placement_iff hreads.2 hopen hplan
  | evolution e =>
      rw [Statement.isSome_ofLine? (by rw [hreads.1]; simp)]
      exact isSome_open?_evolution_iff hreads.1 hreads.2 hopen hplan
  | region r =>
      rw [Statement.isSome_ofLine? (Kind.ne_annotation_of_isRegion hreads.1)]
      refine iff_of_true (isSome_open?_region hreads.2 hopen hplan) ?_
      cases edit <;> exact id
  | annotation a =>
      have hread := isSome_ofLine?_annotation hreads.2 hplan
      rw [hreads.1]
      refine iff_of_true ?_ ?_
      · rwa [Statement.ofLine?, Option.isSome_map]
      · cases edit <;> exact id

end Edit

namespace Document

variable {doc doc' : Document} {config : Config} {n : Nat} {e : Edit}

theorem exists_locate_iff {kind : Kind} {expected : Option Text} {line : Text}
    (hline : doc.line? n = some line) :
    (∃ found, doc.locate n expected kind = .ok found) ↔ (Statement.ofLine? kind line).isSome = true := by
  rw [Option.isSome_iff_exists]
  constructor
  · rintro ⟨found, h⟩
    obtain ⟨text, statement, htext, hstatement, -⟩ := locate_eq_ok_iff.mp h
    obtain rfl := Option.some.inj (htext.symm.trans hline)
    exact ⟨statement, hstatement⟩
  · rintro ⟨statement, hstatement⟩
    exact ⟨_, locate_eq_ok_iff.mpr ⟨line, statement, hline, hstatement, rfl⟩⟩

/-- After an edit that is made, the statement is located on its line again unless the edit runs into the
keyword. -/
theorem edit_locate_iff (h : doc.edit config n e = .ok doc') : ∃ line statement c,
    doc.line? n = some line ∧ Statement.ofLine? e.kind line = some statement ∧
      e.kind.open? line = some c ∧
      ∀ expected, (∃ found, doc'.locate n expected e.kind = .ok found) ↔
        ¬e.RunsInto c.col line statement := by
  obtain ⟨-, line, statement, rs, hline, hstatement, hplan, hwith⟩ := edit_eq_ok_iff.mp h
  obtain ⟨c, hopen⟩ := Statement.exists_open? hstatement
  have hnew := line?_of_withLine? hwith hline (Edit.fits_of_plan? hstatement hplan)
  refine ⟨line, statement, c, hline, hstatement, hopen, fun expected => ?_⟩
  rw [exists_locate_iff hnew, Edit.isSome_ofLine?_iff hstatement hopen hplan]

/-- An empty name with a space before it is given a first name. -/
theorem edit_locate_iff_space :
    let doc := ofText "component [0.5, 0.5]".toList
    let doc' := ofText "component X[0.5, 0.5]".toList
    doc.edit {} 1 (.rename .component [] ['X']) = .ok doc' ∧
      ∃ found, doc'.locate 1 (some ['X']) .component = .ok found := by
  intro doc doc'
  have hedit : doc.edit {} 1 (.rename .component [] ['X']) = .ok doc' := by decide +kernel
  obtain ⟨line, statement, c, hline, hstatement, hopen, hlocate⟩ := edit_locate_iff hedit
  obtain rfl : "component [0.5, 0.5]".toList = line := Option.some.inj hline
  obtain rfl : (⟨9, " [0.5, 0.5]".toList⟩ : Cursor) = c := Option.some.inj hopen
  have hstop : ((Statement.ofLine? .component "component [0.5, 0.5]".toList).bind
      Statement.name?).map (·.span.stop) = some 10 := by decide +kernel
  change Statement.ofLine? .component _ = some statement at hstatement
  rw [hstatement] at hstop
  refine ⟨hedit, (hlocate (some ['X'])).mpr ?_⟩
  cases statement with
  | placement p => exact fun hruns => absurd (hruns.1.symm.trans (Option.some.inj hstop)) (by decide)
  | evolution e | region r | annotation a => exact id

/-- Without the space the name runs into the keyword, and the line holds no statement any more. -/
theorem edit_locate_component :
    let doc := ofText "component".toList
    let doc' := ofText "componentX".toList
    doc.edit {} 1 (.rename .component [] ['X']) = .ok doc' ∧
      ∀ expected, doc'.locate 1 expected .component = .error (.notOnLine 1 .component) := by
  intro doc doc'
  have hedit : doc.edit {} 1 (.rename .component [] ['X']) = .ok doc' := by decide +kernel
  exact ⟨hedit, fun expected => rfl⟩

end Document

end WardleyMap
