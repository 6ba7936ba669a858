import WardleyMap.Proofs.Edit.Clause
import WardleyMap.Proofs.Statement.Placement

/-!
# Writing the numbers of a placement

Coordinates and labels are written in place where they can be read, and put into the line where they
cannot. What the line holds there can be anything: half a bracket, a quote that is never closed, the
beginning of a label. The new clause wins over it in either case, since it comes first and is whole; and
it does not disturb the name, since it holds no quote that could close an open one.
-/

namespace WardleyMap

theorem map_value_label (label : Option LabelClause) :
    (label.map fun label => [label.dx, label.dy]).map (·.map Number.value)
      = (label.map LabelClause.values).map fun values => [values.1, values.2] := by
  cases label with
  | none => rfl
  | some label => rfl

namespace Placement

variable {kind : Kind} {precision : Nat} {values : List Float}

/-! ### Coordinates that can be read -/

namespace Layout

variable {l : Layout}

theorem Reads.withFields (h : l.Reads kind) (first second : Field) :
    ({ l with first, second } : Layout).Reads kind := by
  refine h.of_behind first second l.tail fun hopen => ?_
  have hsplit : ∀ fs : List Field, l.before ++ (l.written ++ (l.inner ++ (Field.bracketed fs ++ l.tail)))
      = (l.before ++ (l.written ++ l.inner)) ++ (Field.bracketed fs ++ l.tail) := by
    intro fs
    simp only [List.append_assoc]
  have hne : ∀ fs : List Field, Field.bracketed fs ≠ [] := fun fs => List.cons_ne_nil _ _
  rw [behind, coordinates, hsplit] at hopen
  rw [hsplit]
  exact Name.quotedLength?_eq_none_of_replace (Field.isPlain_bracketed _) (Field.isPlain_bracketed _)
    (Or.inl (hne _)) (hne _) hopen

/-- On a line that is given by its parts, the new coordinates are written into the two fields. -/
theorem Reads.rewrites_coordinates (h : l.Reads kind) (hlength : values.length = 2)
    (hfinite : ∀ x ∈ values, x.isFinite = true) : ∃ l' : Layout, l'.Reads kind ∧
      Replacement.applyAll ((Statement.placement (l.placement kind)).write .coordinates precision values)
        (l.line kind) = l'.line kind ∧
      Rewrites .coordinates precision values (l.line kind) (.placement (l.placement kind))
        (l'.line kind) (.placement (l'.placement kind)) := by
  have hfields : [l.first, l.second].length = values.length := hlength.symm
  obtain ⟨fs, hfs, hagree, happly, hkept⟩ := @Field.exists_writeNumbers precision _ _ hfields hfinite
    _ _ (l.length_upToFirst kind) (']' :: l.tail)
  obtain ⟨first, second, rfl⟩ := List.length_eq_two.mp hfs
  have hline : l.upToFirst kind ++ (Field.join [first, second] ++ (']' :: l.tail))
      = ({ l with first, second } : Layout).line kind := by
    rw [line_eq_upToFirst]
    rfl
  rw [← line_eq_upToFirst, hline] at happly hkept
  refine ⟨{ l with first, second }, h.withFields first second, happly, ?_⟩
  refine ⟨⟨_, rfl, hagree _⟩, rfl, ?_, ?_, fun hnone => absurd hnone (Option.some_ne_none _)⟩
  · change (Option.map _ _).map _ = (Option.map _ _).map _
    rw [map_value_label, map_value_label]
    exact congrArg _ (Cursor.map_values_label? _ _ l.tail)
  · intro numbers hnumbers
    obtain rfl := Option.some.inj hnumbers
    exact hkept

end Layout

/-! ### Coordinates that cannot be read -/

/-- A name that is not quoted is followed by a blank, by a bracket or by nothing. -/
theorem Written.head_rest {before written rest value : Text} (h : Written before written rest value)
    (hopen : Name.quotedLength? (before ++ (written ++ rest)) = none) :
    ∀ ch ∈ rest.head?, isBlank ch = true ∨ ch = '[' := by
  cases h with
  | quoted hquoted =>
      rw [List.nil_append, hquoted.quotedLength?_append] at hopen
      simp at hopen
  | @bare _ _ after tail htrims hnotQuoted hfree hhead =>
      intro ch hch
      cases after with
      | nil => exact Or.inr (hhead ch hch)
      | cons d after =>
          obtain rfl : d = ch := by simpa using hch
          exact Or.inl (Text.isAllBlank_iff.mp htrims.after_blank d List.mem_cons_self)

/-- A clause that is put behind a name does not close its quote. A backslash at the end of the name now
escapes the space before the clause, and no longer the character that was there, but that one is not
a quote. -/
theorem Written.open_of_insert {before written rest value clause : Text}
    (h : Written before written rest value) (hclause : Name.IsPlain clause)
    (hopen : Name.quotedLength? (before ++ (written ++ rest)) = none) :
    Name.quotedLength? (before ++ (written ++ (' ' :: (clause ++ rest)))) = none := by
  have hspace : Name.IsPlain (' ' :: clause) := Name.isPlain_cons.mpr ⟨by decide, hclause⟩
  cases rest with
  | nil =>
      rw [← List.append_assoc] at hopen ⊢
      exact Name.quotedLength?_eq_none_of_replace Name.isPlain_nil hspace (Or.inr rfl)
        (List.cons_ne_nil _ _) hopen
  | cons ch rest =>
      have hch : Name.IsPlain [ch] := by
        refine Name.isPlain_cons.mpr ⟨?_, Name.isPlain_nil⟩
        have := h.head_rest hopen ch rfl
        constructor <;> rintro rfl <;> revert this <;> decide
      have hopen' : Name.quotedLength? ((before ++ written) ++ ([ch] ++ rest)) = none := by
        rwa [List.append_assoc]
      have hreplace := Name.quotedLength?_eq_none_of_replace hch
        (Name.isPlain_append.mpr ⟨hspace, hch⟩) (Or.inl (List.cons_ne_nil _ _)) (by simp) hopen'
      simpa using hreplace

/-- A line that is read as a placement without coordinates opens with the keyword and a written name. -/
theorem exists_front {line : Text} {p : Placement} (hp : ofLine? kind line = some p)
    (hnone : p.coordinates = none) : ∃ lead gap before written rest value : Text, ∃ start : Nat,
      kind.Opens line lead gap ⟨(lead ++ (kind.keyword ++ gap)).length, before ++ (written ++ rest)⟩ ∧
      Written before written rest value ∧
      start = (lead ++ (kind.keyword ++ gap)).length + before.length ∧
      p = ⟨kind, ⟨⟨start, start + written.length⟩, value⟩, none,
        (⟨start + written.length, rest⟩ : Cursor).label?⟩ := by
  obtain ⟨lead, gap, c, hopens, rfl⟩ := exists_opens_of_ofLine? hp
  obtain ⟨before, written, rest, value, hrest, hname⟩ := exists_written c.rest
  have hstop : c.Passes (before ++ written) ⟨c.col + before.length + written.length, rest⟩ := by
    refine ⟨by rw [hrest, List.append_assoc], ?_⟩
    rw [List.length_append, Nat.add_assoc]
  have hcol : c.col = (lead ++ (kind.keyword ++ gap)).length :=
    (Cursor.passes_ofLine_iff.mp hopens.passes).2
  refine ⟨lead, gap, before, written, rest, value, c.col + before.length, ?_, hname, by rw [hcol], ?_⟩
  · rw [← hcol, ← hrest]
    exact hopens
  · unfold ofCursor at hnone ⊢
    simp only [hname.nameAt_eq hstop rfl, hstop.seek_eq] at hnone ⊢
    cases hread : (⟨c.col + before.length + written.length, rest⟩ : Cursor).skipSpaces.bracket? 2 with
    | none => rfl
    | some found => simp [hread] at hnone

/-- Behind the name there is room for coordinates. The space before them counts to the keyword if the
name is empty. -/
theorem exists_insert_coordinates {line lead gap before written rest value : Text} {col : Nat}
    (hopens : kind.Opens line lead gap ⟨col, before ++ (written ++ rest)⟩)
    (hname : Written before written rest value) (first second : Field) :
    ∃ l : Layout, l.Reads kind ∧ l.value = value ∧ l.first = first ∧ l.second = second ∧
      l.tail = rest ∧ l.line kind = (lead ++ (kind.keyword ++ gap)) ++
        (before ++ (written ++ (' ' :: (Field.bracketed [first, second] ++ rest)))) := by
  have hopen := fun h => hname.open_of_insert (Field.isPlain_bracketed [first, second]) h
  by_cases hnil : before ++ written = []
  · obtain ⟨rfl, rfl⟩ := List.append_eq_nil_iff.mp hnil
    refine ⟨⟨lead, gap ++ [' '], [], [], value, [], first, second, rest⟩,
      ⟨hopens.isSpace_lead, ?_, by simp, ?_, Or.inl (by simp), ?_⟩, rfl, rfl, rfl, rfl, ?_⟩
    · intro ch hch
      rcases List.mem_append.mp hch with hch | hch
      · exact hopens.isSpace_gap ch hch
      · obtain rfl := List.mem_singleton.mp hch
        rfl
    · intro ch hch
      obtain rfl : '[' = ch := by simpa using hch
      rfl
    · refine hname.of_rest rfl (by simp) ?_ fun _ => Name.quotedLength?_eq_none_of_head? ?_
      · intro ch hch
        simpa [Layout.coordinates, Field.bracketed] using hch.symm
      · simp [Layout.coordinates, Field.bracketed]
    · simp only [Layout.line, Layout.opening, Layout.behind, Layout.coordinates, List.append_assoc,
        List.nil_append, List.cons_append]
  · have hhead : ∀ tail : Text, (before ++ (written ++ tail)).head? = (before ++ written).head? := by
      intro tail
      rw [← List.append_assoc]
      obtain ⟨ch, s, hs⟩ := List.exists_cons_of_ne_nil hnil
      rw [hs]
      rfl
    refine ⟨⟨lead, gap, before, written, value, [' '], first, second, rest⟩,
      ⟨hopens.isSpace_lead, hopens.isSpace_gap, by simp; decide, ?_, ?_, ?_⟩, rfl, rfl, rfl, rfl, ?_⟩
    · have := hopens.head
      rwa [hhead] at this ⊢
    · have := hopens.boundary
      rwa [hhead] at this ⊢
    · refine hname.of_rest rfl (by simp) ?_ hopen
      intro ch hch
      simpa [Layout.coordinates, Field.bracketed] using hch.symm
    · simp only [Layout.line, Layout.opening, Layout.behind, Layout.coordinates, List.append_assoc,
        List.nil_append, List.cons_append]

/-- Whether the line has coordinates or not: they are written over, or a bracket is put behind the name. -/
theorem rewrites_coordinates {line : Text} {p : Placement} (hp : ofLine? kind line = some p)
    (hlength : values.length = 2) (hfinite : ∀ x ∈ values, x.isFinite = true) :
    ∃ line' p', Replacement.applyAll ((Statement.placement p).write .coordinates precision values) line
        = line' ∧ ofLine? kind line' = some p' ∧
      Rewrites .coordinates precision values line (.placement p) line' (.placement p') := by
  cases hcoordinates : p.coordinates with
  | some bracket =>
      obtain ⟨l, hreads, rfl, rfl⟩ := exists_layout hp (by rw [hcoordinates]; rfl)
      obtain ⟨l', hreads', happly, hrewrites⟩ :=
        @Layout.Reads.rewrites_coordinates _ precision _ _ hreads hlength hfinite
      exact ⟨_, _, happly, hreads'.ofLine?_eq, hrewrites⟩
  | none =>
      obtain ⟨lead, gap, before, written, rest, value, start, hopens, hname, rfl, rfl⟩ :=
        exists_front hp hcoordinates
      obtain ⟨fs, hfs, htext, hagree⟩ := @Field.exists_bracketText precision values
        (by rintro rfl; simp at hlength) hfinite
      obtain ⟨first, second, rfl⟩ := List.length_eq_two.mp (hfs.trans hlength)
      obtain ⟨l', hreads', rfl, rfl, rfl, rfl, hline'⟩ :=
        exists_insert_coordinates hopens hname first second
      have hline : line = (lead ++ (kind.keyword ++ gap)) ++ (before ++ written) ++ l'.tail := by
        rw [(Cursor.passes_ofLine_iff.mp hopens.passes).1]
        simp only [List.append_assoc]
      have hcol : (lead ++ (kind.keyword ++ gap)).length + before.length + written.length
          = ((lead ++ (kind.keyword ++ gap)) ++ (before ++ written)).length := by
        simp only [List.length_append]
        omega
      have happly : Replacement.applyAll [.insertion
          ((lead ++ (kind.keyword ++ gap)).length + before.length + written.length)
          (Clause.fresh .coordinates precision values)] line = l'.line kind := by
        rw [hline, Replacement.applyAll_insertion hcol, hline', Clause.fresh, htext]
        simp only [List.append_assoc, List.cons_append]
      refine ⟨_, _, happly, hreads'.ofLine?_eq, ⟨_, rfl, hagree _⟩, rfl, ?_, ?_, fun _ => ?_⟩
      · change (Option.map _ _).map _ = (Option.map _ _).map _
        rw [map_value_label, map_value_label]
        exact congrArg _ (Cursor.map_values_label? _ _ l'.tail)
      · intro numbers hnumbers
        simp [Statement.numbers?] at hnumbers
      · rw [← happly, Replacement.applyAll_insertion_eq]
        rfl

end Placement

end WardleyMap
