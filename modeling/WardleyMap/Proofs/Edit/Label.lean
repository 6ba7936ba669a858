import WardleyMap.Proofs.Edit.Coordinates

/-!
# Writing the label of a placement

A label is looked for behind the coordinates. One that is found there is written in place. A new one is
put right behind the coordinates and is the first to be found, whatever follows: the space before it
starts a token, and the clause is whole.
-/

namespace WardleyMap

namespace Placement

variable {kind : Kind} {precision : Nat} {values : List Float}

namespace Layout

variable {l : Layout}

/-- What stands behind the coordinates may be exchanged for another text that cannot close a quote. -/
theorem Reads.withTail (h : l.Reads kind) {before old new rest : Text}
    (htail : l.tail = before ++ (old ++ rest)) (hold : Name.IsPlain old) (hnew : Name.IsPlain new)
    (hne : before = [] ∨ old ≠ [] ∧ new ≠ []) :
    ({ l with tail := before ++ (new ++ rest) } : Layout).Reads kind := by
  refine h.of_behind l.first l.second _ fun hopen => ?_
  have hcoordinates := Field.isPlain_bracketed [l.first, l.second]
  rw [behind, coordinates, htail] at hopen
  rcases hne with rfl | ⟨hold', hnew'⟩
  · have hsplit : ∀ text : Text, l.before ++ (l.written ++
        (l.inner ++ (Field.bracketed [l.first, l.second] ++ ([] ++ (text ++ rest)))))
          = (l.before ++ (l.written ++ l.inner)) ++
            ((Field.bracketed [l.first, l.second] ++ text) ++ rest) := by
      intro text
      simp only [List.append_assoc, List.nil_append]
    have hne : ∀ text : Text, Field.bracketed [l.first, l.second] ++ text ≠ [] :=
      fun text => List.cons_ne_nil _ _
    rw [hsplit] at hopen ⊢
    exact Name.quotedLength?_eq_none_of_replace (Name.isPlain_append.mpr ⟨hcoordinates, hold⟩)
      (Name.isPlain_append.mpr ⟨hcoordinates, hnew⟩) (Or.inl (hne _)) (hne _) hopen
  · have hsplit : ∀ text : Text, l.before ++ (l.written ++
        (l.inner ++ (Field.bracketed [l.first, l.second] ++ (before ++ (text ++ rest)))))
          = (l.before ++ (l.written ++ (l.inner ++
            (Field.bracketed [l.first, l.second] ++ before)))) ++ (text ++ rest) := by
      intro text
      simp only [List.append_assoc]
    rw [hsplit] at hopen ⊢
    exact Name.quotedLength?_eq_none_of_replace hold hnew (Or.inl hold') hnew' hopen

theorem numbers?_label (kind : Kind) (l : Layout) :
    (Statement.placement (l.placement kind)).numbers? .label
      = (l.afterBracket kind).label?.map fun label => [label.dx, label.dy] :=
  rfl

theorem afterBracket_withTail (kind : Kind) (l : Layout) (tail : Text) :
    afterBracket kind { l with tail } = ⟨(l.afterBracket kind).col, tail⟩ :=
  rfl

theorem name?_withTail (kind : Kind) (l : Layout) (tail : Text) :
    (Statement.placement (placement kind { l with tail })).name?
      = (Statement.placement (l.placement kind)).name? :=
  rfl

theorem numbers?_coordinates_withTail (kind : Kind) (l : Layout) (tail : Text) :
    (Statement.placement (placement kind { l with tail })).numbers? .coordinates
      = (Statement.placement (l.placement kind)).numbers? .coordinates :=
  rfl

/-- A label that is there is written over; the rest of the line is read as before. -/
theorem Reads.rewrites_label (h : l.Reads kind) {clause : LabelClause}
    (hlabel : (l.afterBracket kind).label? = some clause) (hlength : values.length = 2)
    (hfinite : ∀ x ∈ values, x.isFinite = true) : ∃ l' : Layout, l'.Reads kind ∧
      Replacement.applyAll ((Statement.placement (l.placement kind)).write .label precision values)
        (l.line kind) = l'.line kind ∧
      Rewrites .label precision values (l.line kind) (.placement (l.placement kind))
        (l'.line kind) (.placement (l'.placement kind)) := by
  obtain ⟨before, gap, f, g, rest, hgap, htail, rfl, hbefore⟩ := Cursor.exists_beforeLabel hlabel
  have hstart : (l.afterBracket kind).col + before.length = (l.upToTail kind ++ before).length := by
    rw [List.length_append, length_upToTail]
  obtain ⟨f', g', hagree, happly, hkept⟩ :=
    @Field.exists_writeLabelled precision _ gap f g hlength hfinite _ _ hstart rest
  have hne : ∀ fs : List Field, Field.labelled gap fs ≠ [] := fun fs => List.cons_ne_nil _ _
  have hreads' := h.withTail htail (Field.isPlain_labelled hgap _)
    (Field.isPlain_labelled hgap [f', g']) (Or.inr ⟨hne _, hne _⟩)
  have hline : (l.upToTail kind ++ before) ++ (Field.labelled gap [f, g] ++ rest) = l.line kind := by
    rw [line_eq_upToTail, show l.tail = _ from htail, List.append_assoc]
  have hline' : (l.upToTail kind ++ before) ++ (Field.labelled gap [f', g'] ++ rest)
      = line kind { l with tail := before ++ (Field.labelled gap [f', g'] ++ rest) } := by
    rw [line_eq_upToTail, List.append_assoc]
    rfl
  rw [hline, hline'] at happly hkept
  have hnumbers : (Statement.placement (l.placement kind)).numbers? .label
      = some (Field.numbers ((l.afterBracket kind).col + before.length + 5 + gap.length + 1)
        [f, g]) := by
    rw [numbers?_label, hlabel]
    rfl
  have hnumbers' : (Statement.placement (placement kind
      { l with tail := before ++ (Field.labelled gap [f', g'] ++ rest) })).numbers? .label
        = some (Field.numbers ((l.afterBracket kind).col + before.length + 5 + gap.length + 1)
          [f', g']) := by
    rw [numbers?_label, afterBracket_withTail, hbefore.found gap f' g' rest _ hgap]
    rfl
  refine ⟨_, hreads', ?_, ⟨_, hnumbers', hagree _⟩, congrArg _ (name?_withTail kind l _), ?_, ?_,
    ?_⟩
  · rw [Statement.write, hnumbers]
    exact happly
  · exact congrArg _ (numbers?_coordinates_withTail kind l _)
  · intro numbers hsome
    obtain rfl := Option.some.inj (hnumbers.symm.trans hsome)
    exact hkept
  · rw [hnumbers]
    exact nofun

/-- Where there is no label, one is put right behind the coordinates, where the next reading finds it first. -/
theorem Reads.rewrites_fresh_label (h : l.Reads kind) (hlabel : (l.afterBracket kind).label? = none)
    (hlength : values.length = 2) (hfinite : ∀ x ∈ values, x.isFinite = true) :
    ∃ l' : Layout, l'.Reads kind ∧
      Replacement.applyAll ((Statement.placement (l.placement kind)).write .label precision values)
        (l.line kind) = l'.line kind ∧
      Rewrites .label precision values (l.line kind) (.placement (l.placement kind))
        (l'.line kind) (.placement (l'.placement kind)) := by
  obtain ⟨f, g, hfresh, hagree⟩ := @Clause.exists_fresh_label precision values hlength hfinite
  have hplain : Name.IsPlain (Clause.fresh .label precision values) := by
    rw [hfresh]
    exact Name.isPlain_cons.mpr ⟨by decide, Field.isPlain_labelled isSpace_of_mem_space _⟩
  have happly : Replacement.applyAll [.insertion (l.afterBracket kind).col
      (Clause.fresh .label precision values)] (l.line kind)
      = line kind { l with tail := Clause.fresh .label precision values ++ l.tail } := by
    rw [line_eq_upToTail, line_eq_upToTail, Replacement.applyAll_insertion (length_upToTail kind l)]
    rfl
  have htail : l.tail = [] ++ ([] ++ l.tail) := rfl
  have hreads' := h.withTail htail Name.isPlain_nil hplain (Or.inl rfl)
  rw [List.nil_append] at hreads'
  have hnumbers : (Statement.placement (l.placement kind)).numbers? .label = none := by
    rw [numbers?_label, hlabel, Option.map_none]
  have hnumbers' : (Statement.placement (placement kind
      { l with tail := Clause.fresh .label precision values ++ l.tail })).numbers? .label
        = some (Field.numbers ((l.afterBracket kind).col + 1 + 5 + 1 + 1) [f, g]) := by
    rw [numbers?_label, afterBracket_withTail, hfresh, List.cons_append, Cursor.label?_blank rfl,
      Cursor.label?_labelled isSpace_of_mem_space]
    rfl
  refine ⟨_, hreads', ?_, ⟨_, hnumbers', hagree _⟩, congrArg _ (name?_withTail kind l _), ?_, ?_,
    fun _ => ?_⟩
  · rw [Statement.write, hnumbers]
    exact happly
  · exact congrArg _ (numbers?_coordinates_withTail kind l _)
  · rw [hnumbers]
    exact nofun
  · rw [← happly, Replacement.applyAll_insertion_eq]
    rfl

end Layout

/-- Every line with coordinates has such parts, so the label of any placement with coordinates can be written. -/
theorem rewrites_label {line : Text} {p : Placement} (hp : ofLine? kind line = some p)
    (hsome : p.coordinates.isSome = true) (hlength : values.length = 2)
    (hfinite : ∀ x ∈ values, x.isFinite = true) :
    ∃ line' p', Replacement.applyAll ((Statement.placement p).write .label precision values) line
        = line' ∧ ofLine? kind line' = some p' ∧
      Rewrites .label precision values line (.placement p) line' (.placement p') := by
  obtain ⟨l, hreads, rfl, rfl⟩ := exists_layout hp hsome
  have hrewrites : ∃ l' : Layout, l'.Reads kind ∧
      Replacement.applyAll ((Statement.placement (l.placement kind)).write .label precision values)
        (l.line kind) = l'.line kind ∧
      Rewrites .label precision values (l.line kind) (.placement (l.placement kind))
        (l'.line kind) (.placement (l'.placement kind)) := by
    cases hlabel : (l.afterBracket kind).label? with
    | some clause => exact hreads.rewrites_label hlabel hlength hfinite
    | none => exact hreads.rewrites_fresh_label hlabel hlength hfinite
  obtain ⟨l', hreads', happly, h⟩ := hrewrites
  exact ⟨_, _, happly, hreads'.ofLine?_eq, h⟩

end Placement

end WardleyMap
