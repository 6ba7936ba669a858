import WardleyMap.Proofs.Edit.Maturity

/-!
# Writing the label of an evolved component

A label that is found is written in place, and what stands before it is not touched. A new one is put behind
the number, or else behind the last name, and from then on the line ends there for the reader of the
names: what stood behind is no longer looked at, but it held neither a name nor a number.
-/

namespace WardleyMap

open Text

namespace Evolution

def ShowsLabel (precision : Nat) (dx dy : Float) (e : Evolution) : Prop :=
  ∃ label, e.label = some label ∧ Decimal.agreesAt precision label.dx.value dx = true ∧
    Decimal.agreesAt precision label.dy.value dy = true

theorem showsLabel_of_agree {precision col : Nat} {dx dy : Float} {e : Evolution} {gap : Text} {f g : Field}
    (hlabel : e.label = some (Field.labelClause col gap f g))
    (hagree : ∀ col, Field.Agree precision (Field.numbers col [f, g]) [dx, dy]) :
    ShowsLabel precision dx dy e := by
  refine ⟨_, hlabel, ?_⟩
  cases hagree (col + 5 + gap.length + 1) with
  | cons hf hfs =>
      cases hfs with
      | cons hg _ => exact ⟨hf, hg⟩

/-! ### A stretch that is cut off -/

namespace Stretch

variable {s : Stretch}

/-- The stretch up to the end of its number, or else of its name, and a space. -/
def cut (s : Stretch) : Stretch :=
  if s.literal = [] then ⟨s.before, s.name, [' '], [], []⟩
  else ⟨s.before, s.name, s.after, s.literal, [' ']⟩

def remainder (s : Stretch) : Text :=
  if s.literal = [] then s.after else s.trailing

theorem before_cut (s : Stretch) : s.cut.before = s.before := by
  rw [cut]
  split <;> rfl

theorem name_cut (s : Stretch) : s.cut.name = s.name := by
  rw [cut]
  split <;> rfl

theorem literal_cut (s : Stretch) : s.cut.literal = s.literal := by
  rw [cut]
  split
  · next hnil => exact hnil.symm
  · rfl

/-- Up to the place of the cut the text is the same. -/
theorem exists_text_eq (h : s.Reads) :
    ∃ front, s.text = front ++ s.remainder ∧ s.cut.text = front ++ [' '] ∧
      StartsBlank s.remainder := by
  by_cases hnil : s.literal = []
  · refine ⟨s.before ++ s.name, ?_, ?_, ?_⟩
    · rw [h.text_of_nil hnil, remainder, if_pos hnil]
    · rw [cut, if_pos hnil]
      simp only [text, List.append_assoc, List.append_nil]
    · rw [remainder, if_pos hnil]
      exact startsBlank_of_isAllBlank h.trims.after_blank
  · refine ⟨s.before ++ (s.name ++ (s.after ++ s.literal)), ?_, ?_, ?_⟩
    · rw [remainder, if_neg hnil]
      simp only [text, List.append_assoc]
    · rw [cut, if_neg hnil]
      simp only [text, List.append_assoc]
    · rw [remainder, if_neg hnil]
      exact (h.number_of_ne_nil hnil).2.2.1

/-- A stretch that ends with its number, or else with its name, is read as before. -/
theorem Reads.cut (h : s.Reads) : s.cut.Reads := by
  obtain ⟨front, htext, hcut, hremainder⟩ := exists_text_eq h
  have hquote : '"' ∉ front := fun hmem => h.no_quote (htext ▸ List.mem_append_left _ hmem)
  have hquote' : '"' ∉ s.cut.text := by
    rw [hcut]
    simpa using hquote
  by_cases hnil : s.literal = []
  · have hnone : (⟨0, s.cut.text⟩ : Cursor).numbers = [] := by
      obtain ⟨-, -, hnone⟩ := h.number.resolve_left
        fun hliteral => Decimal.literal_ne_nil hliteral.1 hnil
      rw [htext, Cursor.numbers_append hquote (Or.inr hremainder), List.append_eq_nil_iff] at hnone
      rw [hcut, Cursor.numbers_append hquote (Or.inr (startsBlank_of_isAllBlank rfl)), hnone.1]
      exact Cursor.numbers_eq_nil_of_isAllBlank rfl _
    rw [Stretch.cut, if_pos hnil] at hquote' hnone ⊢
    exact ⟨hquote', h.trims.of_after rfl, Or.inr ⟨rfl, rfl, hnone⟩⟩
  · obtain ⟨hliteral, hends, -, -⟩ := h.number_of_ne_nil hnil
    rw [Stretch.cut, if_neg hnil] at hquote' ⊢
    exact ⟨hquote', h.trims, Or.inl ⟨hliteral, hends, startsBlank_of_isAllBlank rfl,
      Cursor.numbers_eq_nil_of_isAllBlank rfl 0⟩⟩

end Stretch

namespace Layout

variable {l : Layout} {precision : Nat}

/-- A line that is cut to make room for a label is read as before, and a label may follow the blank at its end. -/
theorem Reads.cut (h : l.Reads) (hname : l.stretch.name ≠ []) :
    ({ l with stretch := l.stretch.cut } : Layout).Reads ∧
      EndsBlank (frontText l.front ++ l.stretch.cut.text) := by
  obtain ⟨front, htext, hcut, -⟩ := Stretch.exists_text_eq h.stretch
  have hends : EndsBlank (frontText l.front ++ l.stretch.cut.text) := by
    rw [hcut, ← List.append_assoc]
    exact (endsBlank_append (List.cons_ne_nil _ _)).mpr (endsBlank_of_isAllBlank rfl)
  refine ⟨h.withStretch hname h.stretch.cut (Stretch.before_cut _) (Stretch.name_cut _) ?_ ?_
    fun _ => hends, hends⟩
  · intro hnone
    rw [htext] at hnone
    rw [hcut]
    exact hnone.left.append (Name.noArrow_of_not_mem (by decide)) fun _ hhead => by simp at hhead
  · have hnoLabel := h.noLabel
    rw [body, htext, ← List.append_assoc] at hnoLabel
    rw [hcut, ← List.append_assoc]
    exact hnoLabel.left.append_of_not_mem (by decide)

/-- What is read in front of a label does not depend on the label. -/
theorem Reads.withTail (h : l.Reads) (hne : l.body ≠ []) (hends : EndsBlank l.body) {tail : Text}
    (htail : StartsLabel tail) : ({ l with tail } : Layout).Reads := by
  have hhead : ∀ t : Text, (l.body ++ t).head? = l.body.head? := by
    intro t
    obtain ⟨c, s, hs⟩ := List.exists_cons_of_ne_nil hne
    rw [hs]
    rfl
  refine ⟨h.isSpace_lead, h.isSpace_gap, ?_, ?_, h.leads, h.stretch, h.noLabel,
    Or.inr ⟨hends, htail⟩⟩
  · have := h.head
    rw [hhead] at this
    exact fun ch hch => this ch (hhead tail ▸ hch)
  · have := h.boundary
    rw [hhead] at this
    exact this.imp_right fun hboundary ch hch => hboundary ch (hhead tail ▸ hch)

/-- The place where a new label is put cuts the line. -/
theorem exists_cut (h : l.Reads) (tail : Text) : ∃ front,
    l.line = front ++ (l.stretch.remainder ++ l.tail) ∧ l.evolution.insertPoint = front.length ∧
      ({ l with stretch := l.stretch.cut, tail } : Layout).line = front ++ (' ' :: tail) := by
  by_cases hnil : l.stretch.literal = []
  · refine ⟨l.upToNameEnd, ?_, ?_, ?_⟩
    · rw [line_eq_upToNameEnd, Stretch.remainder, if_pos hnil, hnil,
        h.stretch.trailing_eq_nil hnil, List.nil_append, List.nil_append]
    · rw [insertPoint_eq, if_pos hnil]
    · rw [line_eq_upToNameEnd, Stretch.cut, if_pos hnil]
      rfl
  · refine ⟨l.upToLiteral ++ l.stretch.literal, ?_, ?_, ?_⟩
    · rw [line_eq_upToLiteral, Stretch.remainder, if_neg hnil, List.append_assoc]
    · rw [insertPoint_eq, if_neg hnil]
    · rw [line_eq_upToLiteral, Stretch.cut, if_neg hnil, List.append_assoc]
      rfl

theorem label_of_tail {gap : Text} (hgap : ∀ ch ∈ gap, isSpace ch = true) {f g : Field} {rest : Text}
    (h : l.tail = Field.labelled gap [f, g] ++ rest) :
    l.evolution.label = some (Field.labelClause (l.opening.length + l.body.length) gap f g) := by
  change (⟨_, l.tail⟩ : Cursor).label? = _
  rw [h, Cursor.label?_labelled hgap]

variable {dx dy : Float}

theorem showsLabel_of_tail {gap : Text} (hgap : ∀ ch ∈ gap, isSpace ch = true) {f g : Field}
    {rest : Text} (h : l.tail = Field.labelled gap [f, g] ++ rest)
    (hagree : ∀ col, Field.Agree precision (Field.numbers col [f, g]) [dx, dy]) :
    ShowsLabel precision dx dy l.evolution :=
  showsLabel_of_agree (label_of_tail hgap h) hagree

def writeLabel (l : Layout) (precision : Nat) (dx dy : Float) : Layout :=
  { l with tail := relabel precision dx dy l.tail }

/-- Writing over a label changes only the label. -/
theorem Reads.writeLabel (h : l.Reads) (hname : l.stretch.name ≠ [])
    (hfinite : ∀ x ∈ [dx, dy], x.isFinite = true) (htail : l.tail ≠ []) :
    (l.writeLabel precision dx dy).Reads ∧
      Replacement.applyAll (l.evolution.setLabel precision dx dy) l.line
        = (l.writeLabel precision dx dy).line ∧
      ShowsLabel precision dx dy (l.writeLabel precision dx dy).evolution := by
  obtain ⟨hends, gap, f, g, rest, hgap, htail⟩ := h.tail.resolve_left htail
  obtain ⟨f', g', hrewrite⟩ := List.length_eq_two.mp
    (@Field.length_rewrite precision [f, g] [dx, dy] rfl)
  have hrelabel : (l.writeLabel precision dx dy).tail = Field.labelled gap [f', g'] ++ rest := by
    have := @relabel_of_found precision _ _ hfinite _ _ .nil hgap f g rest
    rw [hrewrite] at this
    rw [Layout.writeLabel, htail]
    exact this
  have hagree : ∀ col, Field.Agree precision (Field.numbers col [f', g']) [dx, dy] := by
    rw [← hrewrite]
    exact Field.agree_rewrite rfl hfinite
  refine ⟨h.withTail (body_ne_nil hname) hends ⟨gap, f', g', rest, hgap, hrelabel⟩, ?_,
    showsLabel_of_tail hgap hrelabel hagree⟩
  have hcol : l.opening.length + l.body.length = (l.opening ++ l.body).length :=
    List.length_append.symm
  have hplan : l.evolution.setLabel precision dx dy = WardleyMap.writeLabel precision
      (⟨(l.opening ++ l.body).length, l.tail⟩ : Cursor).label? (l.opening ++ l.body).length dx dy := by
    rw [Evolution.setLabel, label_of_tail hgap htail, htail, Cursor.label?_labelled hgap, hcol]
    rfl
  rw [hplan, line_eq_body, applyAll_writeLabel hfinite, line_eq_body]
  rfl

/-- The label where there was none: what follows the number, or else the last name, comes to stand behind
it. -/
def insertLabel (l : Layout) (precision : Nat) (dx dy : Float) : Layout :=
  { l with
    stretch := l.stretch.cut
    tail := (Clause.fresh .label precision [dx, dy]).tail ++ l.stretch.remainder }

/-- A new label is read behind the names and the number, which are read as before. -/
theorem Reads.insertLabel (h : l.Reads) (hname : l.stretch.name ≠ [])
    (hfinite : ∀ x ∈ [dx, dy], x.isFinite = true) (htail : l.tail = []) :
    (l.insertLabel precision dx dy).Reads ∧
      Replacement.applyAll (l.evolution.setLabel precision dx dy) l.line
        = (l.insertLabel precision dx dy).line ∧
      ShowsLabel precision dx dy (l.insertLabel precision dx dy).evolution := by
  obtain ⟨f, g, hfresh, hagree⟩ := @Clause.exists_fresh_label precision [dx, dy] rfl hfinite
  have hlabel : l.evolution.label = none := by
    change (⟨_, l.tail⟩ : Cursor).label? = none
    rw [htail, Cursor.label?_nil]
  have hinserted : l.insertLabel precision dx dy = { l with
      stretch := l.stretch.cut, tail := Field.labelled [' '] [f, g] ++ l.stretch.remainder } := by
    rw [Layout.insertLabel, hfresh]
    rfl
  obtain ⟨front, hline, hpoint, hline'⟩ :=
    exists_cut h (Field.labelled [' '] [f, g] ++ l.stretch.remainder)
  obtain ⟨hcut, hends⟩ := h.cut hname
  have hbody : Layout.body { l with stretch := l.stretch.cut } ≠ [] :=
    body_ne_nil (by rwa [Stretch.name_cut])
  rw [hinserted]
  refine ⟨hcut.withTail hbody hends ⟨[' '], f, g, l.stretch.remainder, isSpace_of_mem_space, rfl⟩, ?_,
    showsLabel_of_tail isSpace_of_mem_space rfl hagree⟩
  have hplan : l.evolution.setLabel precision dx dy
      = [.insertion front.length (Clause.fresh .label precision [dx, dy])] := by
    rw [Evolution.setLabel, hlabel, hpoint]
    rfl
  rw [hplan, hline, hline', htail, List.append_nil, Replacement.applyAll_insertion rfl, hfresh]
  rfl

def setLabel (l : Layout) (precision : Nat) (dx dy : Float) : Layout :=
  if l.tail = [] then l.insertLabel precision dx dy else l.writeLabel precision dx dy

theorem Reads.setLabel (h : l.Reads) (hname : l.stretch.name ≠ [])
    (hfinite : ∀ x ∈ [dx, dy], x.isFinite = true) : (l.setLabel precision dx dy).Reads ∧
      Replacement.applyAll (l.evolution.setLabel precision dx dy) l.line
        = (l.setLabel precision dx dy).line ∧
      ShowsLabel precision dx dy (l.setLabel precision dx dy).evolution := by
  unfold Layout.setLabel
  split
  · next htail => exact h.insertLabel hname hfinite htail
  · next htail => exact h.writeLabel hname hfinite htail

/-- Writing the label leaves a line that shows it, with the same names and the same maturity. -/
theorem Reads.exists_setLabel (h : l.Reads) (hname : l.stretch.name ≠ [])
    (hfinite : ∀ x ∈ [dx, dy], x.isFinite = true) : ∃ l' : Layout, l'.Reads ∧
      Replacement.applyAll (l.evolution.setLabel precision dx dy) l.line = l'.line ∧
      ShowsLabel precision dx dy l'.evolution ∧
      l'.evolution.name.value = l.evolution.name.value ∧
      l'.evolution.override.map (·.name.value) = l.evolution.override.map (·.name.value) ∧
      l'.evolution.maturity.map Number.value = l.evolution.maturity.map Number.value := by
  obtain ⟨hreads, happly, hshows⟩ := @Reads.setLabel _ precision _ _ h hname hfinite
  refine ⟨_, hreads, happly, hshows, ?_⟩
  rw [name_eq, name_eq, override_eq, override_eq, maturity_value_eq, maturity_value_eq,
    Layout.setLabel]
  split
  · rw [Layout.insertLabel, Stretch.name_cut, Stretch.literal_cut]
    exact ⟨rfl, rfl, rfl⟩
  · exact ⟨rfl, rfl, rfl⟩

end Layout

end Evolution

end WardleyMap
