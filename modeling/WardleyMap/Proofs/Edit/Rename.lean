import WardleyMap.Proofs.Edit.Basic
import WardleyMap.Proofs.Statement.WrittenName
import WardleyMap.Proofs.Statement.Placement

/-!
# Renaming a placement

The encoder decides between the bare and the quoted form of a name without looking at the line, so its
choice has to suit every line. A quoted form is closed by itself. A bare form holds no bracket, and
neither starts nor ends in a blank, so behind the space after the keyword it is all that trimming
leaves before the coordinates. What follows the name is read as before, only from another column.
-/

namespace WardleyMap

namespace Kind

theorem opening_unique {kind : Kind} {lead gap lead' gap' : Text}
    (hlead : ∀ ch ∈ lead, isSpace ch = true) (hlead' : ∀ ch ∈ lead', isSpace ch = true)
    (h : lead ++ (kind.keyword ++ gap) = lead' ++ (kind.keyword ++ gap')) :
    lead = lead' ∧ gap = gap' := by
  obtain ⟨rfl, hkeyword⟩ := Text.append_inj_of_head hlead hlead' (head_keyword_append kind gap)
    (head_keyword_append kind gap') h
  exact ⟨rfl, List.append_cancel_left hkeyword⟩

end Kind

namespace Placement

namespace Layout

variable {kind : Kind} {l : Layout} {lead gap newName : Text}

/-- A name that stands right behind spaces after the keyword has no other blanks before it. -/
theorem Reads.before_eq_nil (h : l.Reads kind)
    (hopening : (l.line kind).take (l.nameStart kind) = lead ++ (kind.keyword ++ gap))
    (hlead : ∀ ch ∈ lead, isSpace ch = true) (hgap : ∀ ch ∈ gap, isSpace ch = true) :
    l.before = [] ∧ l.gap = gap := by
  have hstart : (l.line kind).take (l.nameStart kind)
      = l.lead ++ (kind.keyword ++ (l.gap ++ l.before)) := by
    rw [take_nameStart, front, opening]
    simp only [List.append_assoc]
  obtain ⟨-, hgaps⟩ := Kind.opening_unique h.isSpace_lead hlead (hstart.symm.trans hopening)
  have hbefore : l.before = [] := by
    cases hbefore : l.before with
    | nil => rfl
    | cons ch before =>
        have hspace := hgap ch (by rw [← hgaps, hbefore]; simp)
        rw [h.head ch (by rw [hbefore]; rfl)] at hspace
        exact absurd hspace (by decide)
  rw [hbefore, List.append_nil] at hgaps
  exact ⟨hbefore, hgaps⟩

def rename (l : Layout) (newName : Text) : Layout :=
  { l with written := Name.encode newName, value := Name.unifyBreaks newName }

theorem applyAll_rename (kind : Kind) (l : Layout) (newName : Text) :
    Replacement.applyAll [⟨⟨l.nameStart kind, l.nameStop kind⟩, Name.encode newName⟩] (l.line kind)
      = (l.rename newName).line kind := by
  have hstart := (length_front kind l).symm
  rw [line_eq, Replacement.applyAll_singleton hstart (by rw [← hstart]; rfl), line_eq]
  rfl

theorem line_rename (kind : Kind) (l : Layout) (newName : Text) :
    (l.line kind).take (l.nameStart kind) ++ (Name.encode newName ++ (l.line kind).drop (l.nameStop kind))
      = (l.rename newName).line kind := by
  rw [take_nameStart, drop_nameStop, line_eq]
  rfl

/-- Renaming once more writes nothing new: a name with a carriage return is not the one that was read back, but
it is written the same. -/
theorem applyAll_rename_again (kind : Kind) (l : Layout) (newName : Text) :
    Replacement.applyAll (((l.rename newName).placement kind).rename newName) ((l.rename newName).line kind)
      = (l.rename newName).line kind := by
  unfold Placement.rename
  split
  · rfl
  · exact applyAll_rename kind (l.rename newName) newName

theorem Reads.rename (h : l.Reads kind) (hbefore : l.before = []) (hgap : l.gap ≠ [])
    (hblank : newName.isAllBlank = false) (hname : '\\' ∉ newName) :
    (l.rename newName).Reads kind := by
  refine ⟨h.isSpace_lead, h.isSpace_gap, h.isSpace_inner, fun ch hch => ?_, Or.inl hgap, ?_⟩
  · simp only [Layout.rename, hbefore, List.nil_append] at hch
    exact not_isSpace_of_not_isBlank (Name.head_encode_append hblank _ ch hch)
  · simp only [Layout.rename, hbefore]
    refine Name.written_encode hblank hname h.isSpace_inner ?_
    intro ch hch
    simpa [coordinates, Field.bracketed] using hch.symm

end Layout

end Placement

namespace Document

variable {doc : Document} {config : Config} {n : Nat} {kind : Kind} {text lead gap newName : Text}
  {p : Placement}

/-- Renaming a placement with coordinates writes the encoded name in the place of the old one and
changes nothing else: the line reads as before under the new name, and the statement is found by it. -/
theorem edit_rename (hkind : kind.isPlacement = true) (hline : doc.line? n = some text)
    (hp : Placement.ofLine? kind text = some p) (hcoordinates : p.coordinates.isSome = true)
    (hopening : text.take p.name.span.start = lead ++ (kind.keyword ++ gap))
    (hlead : ∀ ch ∈ lead, isSpace ch = true) (hgap : ∀ ch ∈ gap, isSpace ch = true)
    (hne : gap ≠ []) (hblank : newName.isAllBlank = false) (hname : '\\' ∉ newName)
    (expected : Text) :
    (p.name.value = newName → doc.edit config n (.rename kind expected newName) = .ok doc) ∧
    (p.name.value ≠ newName →
      let start := p.name.span.start
      let new := text.take start ++ (Name.encode newName ++ text.drop p.name.span.stop)
      ∃ doc' p', doc.edit config n (.rename kind expected newName) = .ok doc' ∧
        doc.Writes n new doc' ∧ Placement.ofLine? kind new = some p' ∧
        p'.name = ⟨⟨start, start + (Name.encode newName).length⟩, Name.unifyBreaks newName⟩ ∧
        p'.coordinates.map Bracket.numbers = p.coordinates.map Bracket.numbers ∧
        p'.label.map LabelClause.values = p.label.map LabelClause.values ∧
        (∃ found, doc'.locate n (some newName) kind = .ok found ∧ found.mismatch = none) ∧
        ∀ expected', doc'.edit config n (.rename kind expected' newName) = .ok doc') := by
  have hsupported : ∀ expected, (Edit.rename kind expected newName).unsupported? = none := by
    intro expected
    simp only [Edit.unsupported?, hkind, if_true]
  have hstatement : ∀ {line : Text} {q : Placement}, Placement.ofLine? kind line = some q →
      Statement.ofLine? kind line = some (.placement q) := by
    intro line q hq
    rw [Statement.ofLine?_placement hkind, hq, Option.map_some]
  constructor
  · intro hsame
    have hplan : p.rename newName = [] := by rw [Placement.rename, if_pos (Or.inr hsame)]
    exact edit_eq_self (hsupported expected) hline (hstatement hp) (congrArg some hplan) rfl
  · intro hdiffers start new
    obtain ⟨l, hreads, rfl, rfl⟩ := Placement.exists_layout hp hcoordinates
    obtain ⟨hbefore, rfl⟩ := hreads.before_eq_nil hopening hlead hgap
    have hreads' := hreads.rename hbefore hne hblank hname
    have hnew : new = (l.rename newName).line kind := Placement.Layout.line_rename kind l newName
    have hread' := hreads'.ofLine?_eq
    have hplan : (l.placement kind).rename newName
        = [⟨⟨l.nameStart kind, l.nameStop kind⟩, Name.encode newName⟩] :=
      if_neg (by simp [hblank, hdiffers])
    obtain ⟨doc', hedit, hwrites⟩ : ∃ doc', doc.edit config n (.rename kind expected newName) = .ok doc' ∧
        doc.Writes n _ doc' :=
      exists_edit (hsupported expected) hline (hstatement hp) (congrArg some hplan)
    rw [Placement.Layout.applyAll_rename] at hwrites
    rw [hnew]
    refine ⟨doc', _, hedit, hwrites, hread', rfl, rfl, Cursor.map_values_label? _ _ _, ?_, ?_⟩
    · refine ⟨_, locate_eq_ok_iff.mpr ⟨_, _, hwrites.line, hstatement hread', rfl⟩, ?_⟩
      simp [Statement.mismatch?, Statement.goesBy, Placement.Layout.placement,
        Placement.Layout.rename, Name.agrees_unifyBreaks hname]
    · intro expected'
      exact edit_eq_self (hsupported expected') hwrites.line (hstatement hread') rfl
        (Placement.Layout.applyAll_rename_again kind l newName)

/-- A name that is a bracket is written between quotes, and the coordinates are still read. -/
theorem edit_rename_bracket :
    let text : Text := "component A [0.5, 0.5] label [1, 2]".toList
    let new : Text := "component \"[\" [0.5, 0.5] label [1, 2]".toList
    let doc : Document := ⟨[text]⟩
    ∃ p doc' p', Placement.ofLine? .component text = some p ∧ p.coordinates.isSome = true ∧
      p.name.value ≠ ['['] ∧ doc.edit {} 1 (.rename .component ['A'] ['[']) = .ok doc' ∧
      doc.Writes 1 new doc' ∧ Placement.ofLine? .component new = some p' ∧ p'.name.value = ['['] ∧
      p'.coordinates.map Bracket.numbers = p.coordinates.map Bracket.numbers ∧
      p'.label.map LabelClause.values = p.label.map LabelClause.values := by
  intro text new doc
  let p := (Placement.ofLine? .component text).get (by decide +kernel)
  have hp : Placement.ofLine? .component text = some p := (Option.some_get _).symm
  have hcoordinates : p.coordinates.isSome = true := by decide +kernel
  have hopening : text.take p.name.span.start = [] ++ (Kind.keyword .component ++ [' ']) := by
    decide +kernel
  have hdiffers : p.name.value ≠ ['['] := by decide +kernel
  obtain ⟨-, hrenamed⟩ := @edit_rename doc {} 1 .component text [] [' '] ['['] p rfl rfl hp
    hcoordinates hopening (by simp) isSpace_of_mem_space (by decide) (by decide) (by decide) ['A']
  obtain ⟨doc', p', hedit, hwrites, hp', hname, hnumbers, hlabel, -⟩ := hrenamed hdiffers
  have hnew : text.take p.name.span.start ++
      (Name.encode ['['] ++ text.drop p.name.span.stop) = new := by decide +kernel
  rw [hnew] at hwrites hp'
  exact ⟨p, doc', p', hp, hcoordinates, hdiffers, hedit, hwrites, hp', by rw [hname]; rfl, hnumbers,
    hlabel⟩

end Document

end WardleyMap
