import WardleyMap.Proofs.Statement.Clause
import WardleyMap.Proofs.Statement.NameToken

/-!
# What stands before a deletion

Two edits only delete: one takes back the name that overrides another, and one the text of an annotation.
The first starts behind a name, the second behind a closing bracket. A name that is written ends in
a quote or in a character that is not blank, and where nothing is written the keyword or the space
behind it stands there. So no deletion lays bare a carriage return.
-/

namespace WardleyMap

namespace Cursor

/-- What is passed before the cut is passed without it. -/
theorem Passes.of_clip {c c' : Cursor} {stop : Nat} {s : Text} (h : (c.clip stop).Passes s c') :
    ∃ c'' : Cursor, c.Passes s c'' ∧ c''.col = c'.col := by
  have hprefix : s <+: c.rest := by
    refine List.IsPrefix.trans ⟨c'.rest, h.rest.symm⟩ ?_
    exact List.take_prefix _ _
  obtain ⟨rest, hrest⟩ := hprefix
  exact ⟨⟨c.col + s.length, rest⟩, ⟨hrest.symm, rfl⟩, h.col.symm⟩

theorem exists_passes_bareName (c : Cursor) (stop : Nat) : ∃ passed c', c.Passes passed c' ∧
    (c.bareName stop).span.stop = c'.col ∧ ∀ ch ∈ passed.getLast?, isBlank ch = false := by
  obtain ⟨before, name, after, htext, htrims, hname⟩ := exists_bareName c stop
  have hrest : c.rest = (before ++ name) ++ (after ++ c.rest.drop (stop - c.col)) := by
    rw [← List.append_assoc, ← htext, List.take_append_drop]
  refine ⟨before ++ name, ⟨c.col + (before ++ name).length, _⟩, ⟨hrest, rfl⟩, ?_, fun ch hch => ?_⟩
  · rw [hname, List.length_append, Nat.add_assoc]
  · by_cases hnil : name = []
    · simp [hnil, htrims.before_nil hnil] at hch
    · rw [List.getLast?_append, List.getLast?_eq_some_getLast hnil, Option.some_or] at hch
      exact htrims.last ch (by rwa [List.getLast?_eq_some_getLast hnil])

theorem exists_passes_quotedName {c : Cursor} {token : NameToken}
    (h : c.quotedName? = some token) : ∃ passed c', c.Passes passed c' ∧
    token.span.stop = c'.col ∧ ∀ ch ∈ passed.getLast?, isBlank ch = false := by
  obtain ⟨q, rest, hquoted, hrest, rfl⟩ := quotedName?_eq_some_iff.mp h
  refine ⟨q, ⟨c.col + q.length, rest⟩, ⟨hrest, rfl⟩, rfl, fun ch hch => ?_⟩
  rw [hquoted.getLast?] at hch
  obtain rfl := Option.some.inj hch
  rfl

end Cursor

namespace Evolution

theorem name_ofBody (c : Cursor) (label : Option LabelClause) :
    (ofBody c label).name = (Head.ofCursor c).name := by
  unfold ofBody
  dsimp only
  split
  · rfl
  · split <;> rfl

theorem Head.exists_passes_ofCursor (c : Cursor) : ∃ passed c', c.Passes passed c' ∧
    (Head.ofCursor c).name.span.stop = c'.col ∧ ∀ ch ∈ passed.getLast?, isBlank ch = false := by
  unfold Head.ofCursor
  split
  · next hquoted => exact Cursor.exists_passes_quotedName hquoted
  · split
    · exact Cursor.exists_passes_bareName c _
    · unfold Head.bare
      split
      · exact Cursor.exists_passes_bareName c _
      · exact Cursor.exists_passes_bareName c _

theorem exists_passes_name (c : Cursor) : ∃ passed c', c.Passes passed c' ∧
    (ofCursor c).name.span.stop = c'.col ∧ ∀ ch ∈ passed.getLast?, isBlank ch = false := by
  unfold ofCursor
  simp only [name_ofBody]
  split
  · obtain ⟨passed, c', hpass, hstop, hlast⟩ := Head.exists_passes_ofCursor (c.clip _)
    obtain ⟨c'', hpass'', hcol⟩ := hpass.of_clip
    exact ⟨passed, c'', hpass'', hstop.trans hcol.symm, hlast⟩
  · exact Head.exists_passes_ofCursor c

/-- A name is trimmed, so it does not end in the carriage return that an edit must not uncover. -/
theorem getLast?_take_name {line : Text} {e : Evolution} (h : ofLine? line = some e) :
    (line.take e.name.span.stop).getLast? ≠ some '\r' := by
  obtain ⟨c, hopen, rfl⟩ := Option.map_eq_some_iff.mp h
  obtain ⟨lead, gap, hopens, -⟩ := Kind.exists_opens hopen
  obtain ⟨passed, c', hpass, hstop, hlast⟩ := exists_passes_name c.skipSpaces
  obtain ⟨hline, hcol⟩ := Cursor.passes_ofLine_iff.mp (hopens.passes.trans hpass)
  rw [hstop, hline, hcol, List.take_left]
  intro hreturn
  rw [List.getLast?_append] at hreturn
  cases hpassed : passed.getLast? with
  | some ch =>
      rw [hpassed, Option.some_or] at hreturn
      have := hlast ch hpassed
      rw [Option.some.inj hreturn] at this
      exact absurd this (by decide)
  | none =>
      -- no name is written, and the keyword or a space stands before the place
      rw [hpassed, Option.none_or, List.getLast?_append, List.getLast?_append] at hreturn
      cases hgap : gap.getLast? with
      | some ch =>
          rw [hgap, Option.some_or, Option.some_or] at hreturn
          have := hopens.isSpace_gap ch (List.mem_of_getLast? hgap)
          rw [Option.some.inj hreturn] at this
          exact absurd this (by decide)
      | none =>
          rw [hgap, Option.none_or, show Kind.evolve.keyword.getLast? = some 'e' from rfl,
            Option.some_or] at hreturn
          exact absurd hreturn (by decide)

end Evolution

namespace Annotation

/-- The points of a group end in a bracket, behind which a text may be taken away. -/
theorem exists_passes_groupEnd? {bound : Nat} {c c' : Cursor} (h : groupEnd? bound c = some c') :
    ∃ passed, c.Passes passed c' ∧ passed.getLast? = some ']' := by
  induction bound generalizing c with
  | zero => simp [groupEnd?] at h
  | succ bound ih =>
      simp only [groupEnd?, bind, Option.bind_eq_some_iff] at h
      obtain ⟨⟨point, c₁⟩, hpoint, h⟩ := h
      obtain ⟨fs, -, hpassPoint, -⟩ := Cursor.bracket?_eq_some_iff.mp hpoint
      have hpassGap := Cursor.passes_skipSpaces c₁
      split at h
      · next c₂ hcomma =>
          obtain ⟨passed, hpass, hlast⟩ := ih h
          refine ⟨_, hpassPoint.trans (hpassGap.trans ((Cursor.accept?_eq_some_iff.mp hcomma).trans
            ((Cursor.passes_skipSpaces c₂).trans hpass))), ?_⟩
          iterate 4 refine List.mem_getLast?_append_of_mem_getLast? ?_
          exact hlast
      · refine ⟨_, hpassPoint.trans (hpassGap.trans (Cursor.accept?_eq_some_iff.mp h)), ?_⟩
        iterate 2 refine List.mem_getLast?_append_of_mem_getLast? ?_
        rfl

theorem exists_passes_points? {c : Cursor} {span : Span} (h : points? c = some span) :
    ∃ passed c', c.Passes passed c' ∧ passed.getLast? = some ']' ∧ span = ⟨c.col, c'.col⟩ := by
  simp only [points?, bind, Option.bind_eq_some_iff] at h
  obtain ⟨inner, hinner, h⟩ := h
  split at h
  · obtain ⟨c', hgroup, heq⟩ := Option.bind_eq_some_iff.mp h
    obtain ⟨passed, hpass, hlast⟩ := exists_passes_groupEnd? hgroup
    obtain rfl := Option.some.inj heq
    refine ⟨_, c', (Cursor.accept?_eq_some_iff.mp hinner).trans
      ((Cursor.passes_skipSpaces inner).trans hpass), ?_, rfl⟩
    iterate 2 refine List.mem_getLast?_append_of_mem_getLast? ?_
    exact hlast
  · obtain ⟨⟨point, c'⟩, hpoint, heq⟩ := Option.bind_eq_some_iff.mp h
    obtain ⟨fs, -, hpass, rfl⟩ := Cursor.bracket?_eq_some_iff.mp hpoint
    obtain rfl := Option.some.inj heq
    refine ⟨_, c', hpass, ?_, ?_⟩
    · rw [Field.bracketed, ← List.cons_append, List.getLast?_append]
      rfl
    · rw [hpass.col]
      rfl

/-- The points end in a bracket, and the text of the annotation is looked for behind it. -/
theorem exists_passes_coordinates {line : Text} {a : Annotation} {points : Span}
    (h : ofLine? line = some a) (hpoints : a.coordinates = some points) :
    ∃ passed c', (Cursor.ofLine line).Passes passed c' ∧ passed.getLast? = some ']' ∧
      points.stop = c'.col ∧ a.text = textAt c' := by
  obtain ⟨c, hopen, h⟩ := Option.bind_eq_some_iff.mp h
  obtain ⟨lead, gap, hopens, -⟩ := Kind.exists_opens hopen
  obtain ⟨⟨number, c₁⟩, hnumber, rfl⟩ := Option.map_eq_some_iff.mp h
  obtain ⟨literal, -, hpassNumber, -⟩ := Cursor.exists_literal_of_number? hnumber
  obtain ⟨passed, c', hpass, hlast, rfl⟩ := exists_passes_points? hpoints
  have hpassPoints := (Cursor.passes_skipSpaces c₁).trans hpass
  refine ⟨_, c', hopens.passes.trans (hpassNumber.trans hpassPoints), ?_, rfl, ?_⟩
  · iterate 3 refine List.mem_getLast?_append_of_mem_getLast? ?_
    exact hlast
  · dsimp only at hpoints ⊢
    rw [hpoints, Option.bind_some, hpassPoints.seek_eq]

theorem getLast?_take_coordinates {line : Text} {a : Annotation} {points : Span}
    (h : ofLine? line = some a) (hpoints : a.coordinates = some points) :
    (line.take points.stop).getLast? = some ']' := by
  obtain ⟨passed, c', hpass, hlast, hstop, -⟩ := exists_passes_coordinates h hpoints
  obtain ⟨hline, hcol⟩ := Cursor.passes_ofLine_iff.mp hpass
  rw [hstop, hcol, hline, List.take_left]
  exact hlast

end Annotation

end WardleyMap
