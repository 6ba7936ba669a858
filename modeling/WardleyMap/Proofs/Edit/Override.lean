import WardleyMap.Proofs.Edit.EvolutionLabel
import WardleyMap.Proofs.Name.Encode

/-!
# Writing the name that overrides another one

A bare name is written right behind an arrow and in front of the number, so it is all that is read between
the two: the number is still the last one, even if the name ends in digits. That the name cannot
make a label with what follows it is because of the number too, for no label has one before its
bracket.
-/

namespace WardleyMap

open Text

namespace Evolution

/-- Between an arrow and a number a name without brackets makes no label. -/
theorem noLabel_arrow {upToArrow gap name after literal trailing : Text} (hup : NoLabel upToArrow)
    (hgap : gap.isAllBlank = true) (hopen : '[' ∉ name) (hafter : after.isAllBlank = true)
    (hliteral : Decimal.isLiteral literal = true) (htrailing : NoLabel trailing)
    (hstarts : StartsBlank trailing) :
    NoLabel (upToArrow ++ (Name.arrow ++ (gap ++ (name ++ (after ++ literal))) ++ trailing)) := by
  have hne := Decimal.literal_ne_nil hliteral
  have hlast := List.getLast?_eq_some_getLast hne
  have hnotBlank : ∀ {s : Text}, s.isAllBlank = true → '[' ∉ s :=
    fun hs hmem => absurd (isAllBlank_iff.mp hs _ hmem) (by decide)
  have hfree : '[' ∉ Name.arrow ++ (gap ++ (name ++ (after ++ literal))) := by
    simp only [List.mem_append, not_or]
    exact ⟨by decide, hnotBlank hgap, hopen, hnotBlank hafter, Decimal.not_mem_literal hliteral rfl⟩
  refine hup.append (NoLabel.number_append hfree ?_
    (Decimal.isNumeral_of_mem hliteral _ (List.mem_of_getLast? hlast)) htrailing hstarts) ?_
  · simp only [List.getLast?_append, hlast, Option.some_or]
  · -- the arrow is foreign to a clause
    simp [Name.arrow, isLabelChar, isBracketChar, isSpace, Decimal.isNumeral]

namespace Stretch

variable {s : Stretch} {newName : Text}

theorem after_ne_nil (h : s.Reads) (hname : s.name ≠ []) (hliteral : s.literal ≠ []) :
    s.after ≠ [] := by
  intro hnil
  have hends := (h.number_of_ne_nil hliteral).2.1
  rw [hnil, List.append_nil] at hends
  exact name_not_endsBlank h hname [] hends

/-- A bare name in the place of another one is read with the same number behind it. -/
theorem Reads.withName (h : s.Reads) (hname : s.name ≠ []) (hliteral : s.literal ≠ [])
    (hbare : Name.IsBare newName) (hne : newName ≠ []) {before : Text}
    (hbefore : before.isAllBlank = true) :
    Stretch.Reads { s with before, name := newName } := by
  obtain ⟨hs, -, hstarts, hnone⟩ := h.number_of_ne_nil hliteral
  have hafter := after_ne_nil h hname hliteral
  refine ⟨?_, ⟨hbefore, h.trims.after_blank, hbare.head, hbare.last, fun hnil => absurd hnil hne⟩,
    Or.inl ⟨hs, ?_, hstarts, hnone⟩⟩
  · have hquote := h.no_quote
    simp only [text, List.mem_append, not_or] at hquote ⊢
    exact ⟨fun hmem => absurd (isAllBlank_iff.mp hbefore _ hmem) (by decide), hbare.not_mem rfl,
      hquote.2.2⟩
  · rw [← List.append_assoc]
    exact (endsBlank_append hafter).mpr (endsBlank_of_isAllBlank h.trims.after_blank)

end Stretch

namespace Layout

variable {l : Layout} {newName : Text}

theorem body_eq (l : Layout) : l.body = (frontText l.front ++
    (l.stretch.before ++ (l.stretch.name ++ (l.stretch.after ++ l.stretch.literal)))) ++
      l.stretch.trailing := by
  simp only [body, Stretch.text, List.append_assoc]

theorem Reads.noLabel_trailing (h : l.Reads) (hliteral : l.stretch.literal ≠ []) :
    NoLabel l.stretch.trailing := by
  have hnoLabel := h.noLabel
  rw [body_eq] at hnoLabel
  exact hnoLabel.right (Or.inr (h.stretch.number_of_ne_nil hliteral).2.2.1)

/-- Whether the body ends in a blank is up to what follows the number. -/
theorem Reads.endsBlank_trailing (h : l.Reads) (hliteral : l.stretch.literal ≠ [])
    (hends : EndsBlank l.body) (before : Text) : EndsBlank (before ++ l.stretch.trailing) := by
  have hs := (h.stretch.number_of_ne_nil hliteral).1
  rw [body_eq] at hends
  refine hends.of_left fun hends' => ?_
  refine not_endsBlank hliteral ?_ hends'.of_append.of_append.of_append.of_append
  exact fun c hc => Decimal.not_isBlank_of_mem hs c (List.mem_of_getLast? hc)

def insertName (l : Layout) (newName : Text) : Layout :=
  { l with
    front := some ⟨l.stretch.before, l.stretch.name, [], []⟩
    stretch := { l.stretch with before := [], name := newName } }

def withName (l : Layout) (newName : Text) : Layout :=
  { l with stretch := { l.stretch with name := newName } }

theorem body_insertName (l : Layout) (newName : Text) : (l.insertName newName).body
    = (l.stretch.before ++ (l.stretch.name ++ [])) ++ (Name.arrow ++
      ([] ++ (newName ++ (l.stretch.after ++ l.stretch.literal))) ++ l.stretch.trailing) := by
  simp only [body, insertName, frontText, Option.map_some, Option.getD_some, Front.text,
    Front.upToArrow, Stretch.text, List.append_assoc, List.nil_append, List.append_nil]

/-- An arrow and a bare name behind the only name are read as the override. -/
theorem Reads.insertName (h : l.Reads) (hfront : l.front = none) (hname : l.stretch.name ≠ [])
    (hliteral : l.stretch.literal ≠ []) (hbare : Name.IsBare newName) (hne : newName ≠ []) :
    (l.insertName newName).Reads := by
  obtain ⟨hs, -, hstarts, -⟩ := h.stretch.number_of_ne_nil hliteral
  have hbody : l.body = (l.stretch.before ++ (l.stretch.name ++ [])) ++
      (l.stretch.after ++ (l.stretch.literal ++ l.stretch.trailing)) := by
    simp only [body, hfront, frontText, Option.map_none, Option.getD_none, Stretch.text,
      List.append_assoc, List.nil_append, List.append_nil]
  have hnonempty : l.stretch.before ++ (l.stretch.name ++ []) ≠ [] := by simp [hname]
  have hnoLabel := h.noLabel
  rw [hbody] at hnoLabel
  have hquote := h.no_quote
  have hnoArrow : Name.NoArrow l.body := by
    have hleads := h.leads
    rw [hfront] at hleads
    rw [body, hfront]
    exact hleads
  refine h.withParts ?_ ?_ ⟨⟨?_, h.stretch.trims.of_after rfl, ?_, by simp⟩, ?_⟩
    (h.stretch.withName hname hliteral hbare hne rfl) ?_ ?_
  · rw [hbody]
    exact List.append_ne_nil_of_left_ne_nil hnonempty _
  · change (l.insertName newName).body.head? = _
    obtain ⟨c, t, ht⟩ := List.exists_cons_of_ne_nil hnonempty
    rw [body_insertName, hbody, ht]
    rfl
  · rw [hbody] at hquote
    exact fun hmem => hquote (List.mem_append_left _ hmem)
  · rw [hbody] at hnoArrow
    exact hnoArrow.left
  · exact fun ch hch => not_isSpace_of_not_isBlank (hbare.head_append hne _ ch hch)
  · change NoLabel (l.insertName newName).body
    rw [body_insertName]
    exact noLabel_arrow hnoLabel.left rfl (hbare.not_mem rfl) h.stretch.trims.after_blank hs
      (h.noLabel_trailing hliteral) hstarts
  · intro hends
    change EndsBlank (l.insertName newName).body
    rw [body_insertName, ← List.append_assoc]
    exact h.endsBlank_trailing hliteral hends _

/-- A bare name in the place of the override is read as the override. -/
theorem Reads.withName (h : l.Reads) {f : Front} (hfront : l.front = some f)
    (hname : l.stretch.name ≠ []) (hliteral : l.stretch.literal ≠ []) (hbare : Name.IsBare newName)
    (hne : newName ≠ []) : (l.withName newName).Reads := by
  obtain ⟨hs, -, hstarts, -⟩ := h.stretch.number_of_ne_nil hliteral
  have hleads := h.leads
  rw [hfront] at hleads
  have hbefore := h.stretch.trims.before_blank
  have hbody : ∀ s : Stretch, frontText l.front ++ s.text = f.upToArrow ++ (Name.arrow ++
      ((f.gap ++ s.before) ++ (s.name ++ (s.after ++ s.literal))) ++ s.trailing) := by
    intro s
    simp only [hfront, frontText, Option.map_some, Option.getD_some, Front.text, Stretch.text,
      List.append_assoc]
  have hnoLabel := h.noLabel
  rw [body, hbody] at hnoLabel
  have hgap : (f.gap ++ l.stretch.before).isAllBlank = true := by
    rw [isAllBlank_append, hbefore, Bool.and_true]
    exact isAllBlank_iff.mpr fun ch hch => isBlank_of_isSpace (hleads.1.isSpace_gap ch hch)
  have hreads := h.stretch.withName hname hliteral hbare hne hbefore
  refine @Reads.withParts l h l.front _ ?_ ?_ ?_ hreads ?_ ?_
  · exact body_ne_nil hname
  · have hnonempty : frontText l.front ≠ [] := by
      simp [hfront, frontText, Front.text, Name.arrow]
    obtain ⟨c, t, ht⟩ := List.exists_cons_of_ne_nil hnonempty
    rw [body, ht]
    rfl
  · rw [hfront]
    refine ⟨hleads.1, ?_⟩
    have hhead := hleads.2
    rw [Stretch.text] at hhead ⊢
    dsimp only
    cases hcase : l.stretch.before with
    | nil => exact fun ch hch => not_isSpace_of_not_isBlank (hbare.head_append hne _ ch hch)
    | cons c t =>
        rw [hcase] at hhead
        exact hhead
  · rw [hbody]
    exact noLabel_arrow hnoLabel.left hgap (hbare.not_mem rfl) h.stretch.trims.after_blank hs
      (h.noLabel_trailing hliteral) hstarts
  · intro hends
    rw [hbody, ← List.append_assoc]
    exact h.endsBlank_trailing hliteral hends _

/-! ### The edit -/

theorem applyAll_insertName (l : Layout) (hfront : l.front = none) (newName : Text) :
    Replacement.applyAll [.insertion l.upToNameEnd.length (Name.arrow ++ newName)] l.line
      = (l.insertName newName).line := by
  rw [line_eq_upToNameEnd, Replacement.applyAll_insertion rfl]
  simp only [line, body_insertName, upToNameEnd, upToName, hfront, frontText, Option.map_none,
    Option.getD_none, List.append_assoc, List.nil_append, List.append_nil]
  rfl

theorem applyAll_withName (l : Layout) (newName : Text) :
    Replacement.applyAll [⟨⟨l.upToName.length, l.upToNameEnd.length⟩, newName⟩] l.line
      = (l.withName newName).line := by
  rw [line_eq_upToName, Replacement.applyAll_singleton rfl (by rw [upToNameEnd, List.length_append]),
    line_eq_upToName]
  rfl

/-- Taking the second name away gives back the line as it was. -/
theorem applyAll_delete (l : Layout) (hfront : l.front = none) (newName : Text) :
    Replacement.applyAll [⟨⟨l.upToNameEnd.length, (l.insertName newName).upToNameEnd.length⟩, []⟩]
      (l.insertName newName).line = l.line := by
  have hsplit : (l.insertName newName).line = l.upToNameEnd ++ ((Name.arrow ++ newName) ++
      (l.stretch.after ++ (l.stretch.literal ++ (l.stretch.trailing ++ l.tail)))) := by
    rw [← applyAll_insertName l hfront, line_eq_upToNameEnd, Replacement.applyAll_insertion rfl]
  have hstop : (l.insertName newName).upToNameEnd.length
      = l.upToNameEnd.length + (Name.arrow ++ newName).length := by
    simp only [upToNameEnd, upToName, insertName, opening, frontText, hfront, Option.map_some,
      Option.getD_some, Option.map_none, Option.getD_none, Front.text, Front.upToArrow,
      List.length_append, List.length_nil, List.append_nil]
    omega
  rw [hsplit, Replacement.applyAll_singleton rfl hstop, line_eq_upToNameEnd, List.nil_append]

/-- The line with a second name, which is put behind the only one or written over the second. -/
def setOverride (l : Layout) (newName : Text) : Layout :=
  match l.front with
  | none => l.insertName newName
  | some _ => l.withName newName

theorem Reads.setOverride (h : l.Reads) (hname : l.stretch.name ≠ []) (hliteral : l.stretch.literal ≠ [])
    (hbare : Name.IsBare newName) (hne : newName ≠ []) : (l.setOverride newName).Reads := by
  unfold Layout.setOverride
  split
  · next hfront => exact h.insertName hfront hname hliteral hbare hne
  · next hfront => exact h.withName hfront hname hliteral hbare hne

/-- On a line with a number and names, the edit writes the override as `setOverride` says. -/
theorem applyAll_setOverride_of_isBare (hbare : Name.IsBare newName) (hne : newName ≠ [])
    (hdiffers : newName ≠ l.evolution.name.value) :
    Replacement.applyAll (l.evolution.setOverride newName) l.line = (l.setOverride newName).line := by
  have hkeeps : (newName.isAllBlank || l.evolution.name.value == newName) = false := by
    rw [hbare.isAllBlank_eq_false hne, Bool.false_or]
    exact beq_eq_false_iff_ne.mpr hdiffers.symm
  unfold Layout.setOverride
  split
  · next hfront =>
      have hplan : l.evolution.setOverride newName
          = [.insertion l.upToNameEnd.length (Name.arrow ++ newName)] := by
        rw [name_of_none hfront] at hkeeps
        simp only [Evolution.setOverride, override_of_none hfront, name_of_none hfront, hkeeps,
          hbare.encode_eq]
        rfl
      rw [hplan, applyAll_insertName l hfront]
  · next f hfront =>
      simp only [Evolution.setOverride, override_of_some hfront, hkeeps, hbare.encode_eq]
      by_cases hsame : l.stretch.name = newName
      · rw [if_neg Bool.false_ne_true, if_pos hsame, Replacement.applyAll_nil, ← hsame]
        rfl
      · rw [if_neg Bool.false_ne_true, if_neg hsame, applyAll_withName]

/-- Giving the component its own name as the override takes away what has been put behind its only name. -/
theorem setOverride_insertName (hfront : l.front = none) :
    (l.insertName newName).evolution.setOverride l.evolution.name.value
      = [⟨⟨l.upToNameEnd.length, (l.insertName newName).upToNameEnd.length⟩, []⟩] := by
  have hfront' : (l.insertName newName).front = some ⟨l.stretch.before, l.stretch.name, [], []⟩ := rfl
  have hstop : l.opening.length + l.stretch.before.length + l.stretch.name.length = l.upToNameEnd.length := by
    simp only [upToNameEnd, upToName, hfront, frontText, Option.map_none, Option.getD_none, List.nil_append,
      List.length_append]
  simp only [Evolution.setOverride, override_of_some hfront', name_of_some hfront', name_of_none hfront,
    Front.token, beq_self_eq_true, Bool.or_true, if_true]
  rw [← hstop]
  rfl

/-- Writing another name over the last one leaves a line that shows it, with the same first name, the same
maturity and the same label. If there was no second name, then going back to the first one restores
the line. -/
theorem Reads.exists_setOverride (h : l.Reads) (hname : l.stretch.name ≠ [])
    (hmaturity : l.evolution.maturity.isSome = true) (hbare : Name.IsBare newName)
    (hne : newName ≠ []) (hdiffers : newName ≠ l.evolution.name.value) : ∃ l' : Layout, l'.Reads ∧
      Replacement.applyAll (l.evolution.setOverride newName) l.line = l'.line ∧
      l'.evolution.override.map (·.name.value) = some newName ∧
      l'.evolution.name.value = l.evolution.name.value ∧
      l'.evolution.maturity.map Number.value = l.evolution.maturity.map Number.value ∧
      l'.evolution.label.map LabelClause.values = l.evolution.label.map LabelClause.values ∧
      (l.evolution.override = none → Replacement.applyAll
        (l'.evolution.setOverride l.evolution.name.value) l'.line = l.line) := by
  have hliteral := literal_ne_nil_of_maturity hmaturity
  have hreads := h.setOverride hname hliteral hbare hne
  have happly := applyAll_setOverride_of_isBare hbare hne hdiffers
  unfold Layout.setOverride at hreads happly
  cases hfront : l.front with
  | none =>
      rw [hfront] at hreads happly
      refine ⟨l.insertName newName, hreads, happly, ?_, ?_, ?_, ?_, fun _ => ?_⟩
      · rw [override_eq]
        rfl
      · rw [name_of_none hfront]
        rfl
      · rw [maturity_value_eq, maturity_value_eq]
        rfl
      · rw [label_eq, label_eq]
        rfl
      · rw [setOverride_insertName hfront, applyAll_delete l hfront]
  | some f =>
      rw [hfront] at hreads happly
      refine ⟨l.withName newName, hreads, happly, ?_, ?_, ?_, ?_, fun hnone => ?_⟩
      · rw [override_eq, Layout.withName, hfront]
        rfl
      · rw [name_eq, name_eq, Layout.withName, hfront]
        rfl
      · rw [maturity_value_eq, maturity_value_eq]
        rfl
      · rw [label_eq, label_eq]
        rfl
      · rw [override_of_some hfront] at hnone
        exact absurd hnone (by simp)

end Layout

end Evolution

end WardleyMap
