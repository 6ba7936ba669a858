import WardleyMap.Edit.Basic
import WardleyMap.Proofs.Edit.Deletion
import WardleyMap.Proofs.Edit.Splice

/-!
# What an edit does to a document

An edit that succeeds found its statement, planned its replacements from it and wrote the line back;
`Document.edit_eq_ok_iff` takes these three steps apart. Whatever the statement and the values are, the
new content fits in the place of the old one: `Edit.fits_of_plan?`. So the document stays cut into
the same lines, and the edited line reads back as the content that was written.
-/

namespace WardleyMap

/-! ### Plans -/

theorem fills_fixed (span : Span) (x : Float) (precision : Nat) :
    Replacement.Fills ⟨span, Decimal.fixed x precision⟩ :=
  ⟨Decimal.fixed_ne_nil x precision, Decimal.isUnbroken_fixed x precision⟩

theorem isUnbroken_bracketText (precision : Nat) (values : List Float) :
    (bracketText precision values).IsUnbroken := by
  have hpieces : ∀ piece ∈ values.map (Decimal.fixed · precision), Text.IsUnbroken piece := by
    intro piece hpiece
    obtain ⟨x, -, rfl⟩ := List.mem_map.mp hpiece
    exact Decimal.isUnbroken_fixed x precision
  refine Text.isUnbroken_cons.mpr ⟨by decide, Text.isUnbroken_append.mpr
    ⟨Text.isUnbroken_intercalate ?_ hpieces, ?_⟩⟩
  · simp [Text.IsUnbroken]
  · simp [Text.IsUnbroken]

theorem fills_of_mem_writeNumbers {precision : Nat} {numbers : List Number} {values : List Float} :
    ∀ r ∈ writeNumbers precision numbers values, r.Fills := by
  intro r hr
  unfold writeNumbers at hr
  dsimp only at hr
  split at hr
  · simp at hr
  · obtain ⟨⟨number, value⟩, -, rfl⟩ := List.mem_map.mp hr
    exact fills_fixed _ _ _

theorem fills_of_mem_writeBracket {precision col : Nat} {bracket : Option Bracket}
    {values : List Float} : ∀ r ∈ writeBracket precision bracket col values, r.Fills := by
  intro r hr
  unfold writeBracket at hr
  split at hr
  · exact fills_of_mem_writeNumbers r hr
  · rw [List.mem_singleton.mp hr]
    exact ⟨by simp [Replacement.insertion],
      Text.isUnbroken_cons.mpr ⟨by decide, isUnbroken_bracketText _ _⟩⟩

theorem fills_of_mem_writeLabel {precision col : Nat} {label : Option LabelClause} {dx dy : Float} :
    ∀ r ∈ writeLabel precision label col dx dy, r.Fills := by
  intro r hr
  unfold writeLabel at hr
  split at hr
  · exact fills_of_mem_writeNumbers r hr
  · rw [List.mem_singleton.mp hr]
    refine ⟨by simp [Replacement.insertion], Text.isUnbroken_append.mpr
      ⟨by simp [Text.IsUnbroken], isUnbroken_bracketText _ _⟩⟩

theorem fills_encode {newName : Text} (h : newName.isAllBlank ≠ true) (span : Span) :
    Replacement.Fills ⟨span, Name.encode newName⟩ := by
  refine ⟨Name.encode_ne_nil ?_, Name.isUnbroken_encode newName⟩
  rintro rfl
  exact h rfl

/-- Taking an override away uncovers the end of the name, which is no carriage return. -/
theorem Evolution.fits_setOverride {line : Text} {e : Evolution} (h : ofLine? line = some e)
    (newName : Text) :
    Document.Fits line (Replacement.applyAll (e.setOverride newName) line) := by
  unfold setOverride
  dsimp only
  split
  · split
    · exact Replacement.fits_applyAll_deletion (getLast?_take_name h)
    · next hreverts =>
        split
        · exact Document.Fits.refl line
        · refine Replacement.fits_applyAll (fun r hr => ?_) line
          rw [List.mem_singleton.mp hr]
          refine fills_encode ?_ _
          rintro hblank
          simp [hblank] at hreverts
  · split
    · exact Document.Fits.refl line
    · refine Replacement.fits_applyAll (fun r hr => ?_) line
      rw [List.mem_singleton.mp hr]
      refine ⟨by simp [Replacement.insertion, Name.arrow], Text.isUnbroken_append.mpr
        ⟨by simp [Text.IsUnbroken, Name.arrow], Name.isUnbroken_encode newName⟩⟩

/-- The folded text brings no line break, and the bracket in front of it is no carriage return. -/
theorem Annotation.fits_setText {line newText : Text} {a : Annotation} {rs : List Replacement}
    (h : ofLine? line = some a) (hrs : a.setText? line newText = some rs) :
    Document.Fits line (Replacement.applyAll rs line) := by
  obtain ⟨points, hpoints, rfl⟩ := Option.map_eq_some_iff.mp hrs
  have hfills : ∀ folded : Text, folded.IsUnbroken →
      ∀ r ∈ [(⟨⟨points.stop, line.length⟩, ' ' :: folded⟩ : Replacement)], r.Fills := by
    intro folded hfolded r hr
    rw [List.mem_singleton.mp hr]
    exact ⟨by simp, Text.isUnbroken_cons.mpr ⟨by decide, hfolded⟩⟩
  have hunbroken := Text.isUnbroken_fold newText
  dsimp only
  split
  · exact Document.Fits.refl line
  · refine Replacement.fits_applyAll_deletion ?_
    rw [getLast?_take_coordinates h hpoints]
    decide
  · split
    · exact Document.Fits.refl line
    · exact Replacement.fits_applyAll (hfills _ hunbroken) line
  · exact Replacement.fits_applyAll (hfills _ hunbroken) line

/-- Whatever an edit plans, the new line is one line again. -/
theorem Edit.fits_of_plan? {edit : Edit} {precision : Nat} {line : Text} {statement : Statement}
    {rs : List Replacement} (hstatement : Statement.ofLine? edit.kind line = some statement)
    (hplan : edit.plan? precision line statement = some rs) :
    Document.Fits line (Replacement.applyAll rs line) := by
  unfold plan? at hplan
  split at hplan
  · next newName p =>
      obtain rfl := Option.some.inj hplan
      refine Replacement.fits_applyAll (fun r hr => ?_) line
      unfold Placement.rename at hr
      split at hr
      · simp at hr
      · next hname =>
          rw [List.mem_singleton.mp hr]
          exact fills_encode (not_or.mp hname).1 _
  · next newName e =>
      obtain rfl := Option.some.inj hplan
      obtain ⟨e, he, heq⟩ := Option.map_eq_some_iff.mp hstatement
      obtain rfl := Statement.evolution.inj heq
      exact Evolution.fits_setOverride he newName
  · obtain rfl := Option.some.inj hplan
    exact Replacement.fits_applyAll fills_of_mem_writeBracket line
  · obtain rfl := Option.some.inj hplan
    refine Replacement.fits_applyAll (fun r hr => ?_) line
    unfold Evolution.setMaturity at hr
    split at hr
    · exact fills_of_mem_writeNumbers r hr
    · rw [List.mem_singleton.mp hr]
      exact ⟨by simp [Replacement.insertion],
        Text.isUnbroken_cons.mpr ⟨by decide, Decimal.isUnbroken_fixed _ _⟩⟩
  · obtain rfl := Option.some.inj hplan
    split
    · exact Replacement.fits_applyAll fills_of_mem_writeBracket line
    · exact Replacement.fits_applyAll fills_of_mem_writeBracket line
  · unfold Placement.setLabel? at hplan
    split at hplan
    · obtain rfl := Option.some.inj hplan
      exact Replacement.fits_applyAll fills_of_mem_writeLabel line
    · simp at hplan
  · obtain rfl := Option.some.inj hplan
    exact Replacement.fits_applyAll fills_of_mem_writeLabel line
  · obtain rfl := Option.some.inj hplan
    exact Replacement.fits_applyAll fills_of_mem_writeBracket line
  · next newText a =>
      obtain ⟨a, ha, heq⟩ := Option.map_eq_some_iff.mp hstatement
      obtain rfl := Statement.annotation.inj heq
      exact Annotation.fits_setText ha hplan
  · obtain rfl := Option.some.inj hplan
    exact Document.Fits.refl line

/-! ### Documents -/

namespace Document

variable {doc doc' : Document} {config : Config} {n : Nat} {e : Edit}

theorem locate_eq_ok_iff {expected : Option Text} {kind : Kind} {found : Located} :
    doc.locate n expected kind = .ok found ↔ ∃ text statement, doc.line? n = some text ∧
      Statement.ofLine? kind text = some statement ∧
      found = ⟨n, text, statement, expected.bind (statement.mismatch? n)⟩ := by
  unfold locate
  constructor
  · intro h
    split at h
    · simp at h
    · next text hline =>
        split at h
        · simp at h
        · next statement hstatement =>
            exact ⟨text, statement, hline, hstatement, (Except.ok.inj h).symm⟩
  · rintro ⟨text, statement, hline, hstatement, rfl⟩
    simp only [hline, hstatement]

/-- An edit is made exactly if it applies to the kind, its statement is there and it has a plan. -/
theorem edit_eq_ok_iff : doc.edit config n e = .ok doc' ↔ e.unsupported? = none ∧
    ∃ text statement rs, doc.line? n = some text ∧ Statement.ofLine? e.kind text = some statement ∧
      e.plan? config.precision text statement = some rs ∧
      doc.withLine? n (Replacement.applyAll rs text) = some doc' := by
  unfold edit
  constructor
  · intro h
    split at h
    · simp at h
    · next hsupported =>
        split at h
        · simp at h
        · next found hlocate =>
            obtain ⟨text, statement, hline, hstatement, rfl⟩ := locate_eq_ok_iff.mp hlocate
            split at h
            · simp at h
            · next rs hplan =>
                obtain ⟨doc₁, hdoc⟩ := exists_withLine? hline (Replacement.applyAll rs text)
                obtain rfl : doc₁ = doc' := by simpa [hdoc] using h
                exact ⟨hsupported, text, statement, rs, hline, hstatement, hplan, hdoc⟩
  · rintro ⟨hsupported, text, statement, rs, hline, hstatement, hplan, hdoc⟩
    simp only [hsupported, locate_eq_ok_iff.mpr ⟨text, statement, hline, hstatement, rfl⟩, hplan,
      hdoc, Option.getD_some]

/-- Line `n` of `doc'` has the content `new`, and its other lines are those of `doc`. -/
structure Writes (doc : Document) (n : Nat) (new : Text) (doc' : Document) : Prop where
  line : doc'.line? n = some new
  others : ∀ m, m ≠ n → doc'.stored? m = doc.stored? m
  length_eq : doc'.lines.length = doc.lines.length

theorem writes_of_withLine? {text new : Text} (hline : doc.line? n = some text)
    (h : doc.withLine? n new = some doc') (hfits : Fits text new) : doc.Writes n new doc' :=
  ⟨line?_of_withLine? h hline hfits, fun _ hm => stored?_of_withLine?_ne h hm,
    length_lines_of_withLine? h⟩

/-- An edit of a statement that is on the line, and for which it has a plan, is made. -/
theorem exists_edit {text : Text} {statement : Statement} {rs : List Replacement}
    (hsupported : e.unsupported? = none) (hline : doc.line? n = some text)
    (hstatement : Statement.ofLine? e.kind text = some statement)
    (hplan : e.plan? config.precision text statement = some rs) :
    ∃ doc', doc.edit config n e = .ok doc' ∧ doc.Writes n (Replacement.applyAll rs text) doc' := by
  obtain ⟨doc', hdoc⟩ := exists_withLine? hline (Replacement.applyAll rs text)
  refine ⟨doc', edit_eq_ok_iff.mpr ⟨hsupported, text, statement, rs, hline, hstatement, hplan, hdoc⟩,
    writes_of_withLine? hline hdoc (Edit.fits_of_plan? hstatement hplan)⟩

/-- An edit whose plan leaves the line as it is leaves the document as it is. -/
theorem edit_eq_self {text : Text} {statement : Statement} {rs : List Replacement}
    (hsupported : e.unsupported? = none) (hline : doc.line? n = some text)
    (hstatement : Statement.ofLine? e.kind text = some statement)
    (hplan : e.plan? config.precision text statement = some rs)
    (hsame : Replacement.applyAll rs text = text) : doc.edit config n e = .ok doc := by
  refine edit_eq_ok_iff.mpr ⟨hsupported, text, statement, rs, hline, hstatement, hplan, ?_⟩
  rw [hsame, withLine?_self hline]

/-- The document is left as it is only if the line is. -/
theorem edit_eq_ok_self_iff {text : Text} {statement : Statement} {rs : List Replacement}
    (hsupported : e.unsupported? = none) (hline : doc.line? n = some text)
    (hstatement : Statement.ofLine? e.kind text = some statement)
    (hplan : e.plan? config.precision text statement = some rs) :
    doc.edit config n e = .ok doc ↔ Replacement.applyAll rs text = text := by
  refine ⟨fun h => ?_, edit_eq_self hsupported hline hstatement hplan⟩
  obtain ⟨doc₁, hedit, hwrites⟩ := exists_edit hsupported hline hstatement hplan
  obtain rfl := Except.ok.inj (hedit.symm.trans h)
  exact Option.some.inj (hwrites.line.symm.trans hline)

theorem line?_of_edit (h : doc.edit config n e = .ok doc') : ∃ text new,
    doc.line? n = some text ∧ doc'.line? n = some new ∧ doc.withLine? n new = some doc' ∧
    Fits text new := by
  obtain ⟨-, text, statement, rs, hline, hstatement, hplan, hdoc⟩ := edit_eq_ok_iff.mp h
  have hfits := Edit.fits_of_plan? hstatement hplan
  exact ⟨text, _, hline, line?_of_withLine? hdoc hline hfits, hdoc, hfits⟩

theorem IsCut.edit (hdoc : doc.IsCut) (h : doc.edit config n e = .ok doc') : doc'.IsCut := by
  obtain ⟨text, new, hline, -, hwith, hfits⟩ := line?_of_edit h
  exact hdoc.withLine? hline hfits hwith

end Document

end WardleyMap
