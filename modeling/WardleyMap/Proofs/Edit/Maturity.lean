import WardleyMap.Proofs.Edit.Clause
import WardleyMap.Proofs.Statement.EvolutionLine
import WardleyMap.Proofs.Statement.Exchange

/-!
# Writing the maturity of an evolved component

The maturity is the last number before the label. It is written in the place of the number that is there, or
behind the last name if there is none. What follows it on the line holds no number, so the new one is
the last again; and neither the arrow nor the label is any nearer than before.
-/

namespace WardleyMap

open Text

/-- The literal after a value has been written over it. It stays if it shows the value already. -/
def rewriteLiteral (precision : Nat) (x : Float) (literal : Text) : Text :=
  if Decimal.agreesAt precision (Decimal.value literal) x = true then literal
  else Decimal.fixed x precision

section RewriteLiteral

variable {precision : Nat} {x : Float} {literal : Text}

theorem isLiteral_rewriteLiteral (hx : x.isFinite = true) (hliteral : Decimal.isLiteral literal = true) :
    Decimal.isLiteral (rewriteLiteral precision x literal) = true := by
  unfold rewriteLiteral
  split
  · exact hliteral
  · exact Decimal.isLiteral_fixed_of_isFinite hx precision

theorem agreesAt_rewriteLiteral (hx : x.isFinite = true) :
    Decimal.agreesAt precision (Decimal.value (rewriteLiteral precision x literal)) x = true := by
  unfold rewriteLiteral
  split
  · next hagree => exact hagree
  · exact Decimal.agreesAt_value_fixed hx precision

/-- Writing over one number is replacing its literal, or keeping it where it prints alike. -/
theorem applyAll_writeNumber (precision : Nat) (x : Float) (before literal after : Text) :
    Replacement.applyAll (writeNumbers precision [⟨⟨before.length, before.length + literal.length⟩,
      Decimal.value literal⟩] [x]) (before ++ (literal ++ after))
        = before ++ (rewriteLiteral precision x literal ++ after) := by
  unfold rewriteLiteral
  split
  · next hagree =>
      have hnothing := @Field.writeNumbers_of_agree precision
        [⟨⟨before.length, before.length + literal.length⟩, Decimal.value literal⟩] [x]
        (.cons hagree .nil)
      rw [hnothing, Replacement.applyAll_nil]
  · next hagree =>
      have hwrite : writeNumbers precision
          [⟨⟨before.length, before.length + literal.length⟩, Decimal.value literal⟩] [x]
            = [⟨⟨before.length, before.length + literal.length⟩, Decimal.fixed x precision⟩] := by
        simp [writeNumbers, hagree]
      rw [hwrite, Replacement.applyAll_singleton rfl rfl]

end RewriteLiteral

namespace Evolution

def ShowsMaturity (precision : Nat) (x : Float) (e : Evolution) : Prop :=
  ∃ number, e.maturity = some number ∧ Decimal.agreesAt precision number.value x = true

namespace Stretch

variable {s : Stretch} {literal : Text}

theorem name_not_endsBlank (h : s.Reads) (hname : s.name ≠ []) (front : Text) :
    ¬EndsBlank (front ++ (s.before ++ s.name)) := by
  intro hends
  rw [← List.append_assoc] at hends
  exact not_endsBlank hname h.trims.last ((endsBlank_append hname).mp hends)

/-! ### A number in the place of another one -/

theorem Reads.withLiteral (h : s.Reads) (hs : Decimal.isLiteral s.literal = true)
    (hliteral : Decimal.isLiteral literal = true) : ({ s with literal } : Stretch).Reads := by
  obtain ⟨-, hends, hstarts, hnone⟩ := h.number_of_ne_nil (Decimal.literal_ne_nil hs)
  refine ⟨?_, h.trims, Or.inl ⟨hliteral, hends, hstarts, hnone⟩⟩
  have hquote := h.no_quote
  simp only [text, List.mem_append, not_or] at hquote ⊢
  exact ⟨hquote.1, hquote.2.1, hquote.2.2.1, Decimal.not_mem_literal hliteral rfl, hquote.2.2.2.2⟩

theorem noArrow_withLiteral (hstarts : StartsBlank s.trailing)
    (hliteral : Decimal.isLiteral literal = true) (hnone : Name.NoArrow s.text) :
    Name.NoArrow ({ s with literal } : Stretch).text := by
  have hclose : '>' ∉ literal := Decimal.not_mem_literal hliteral rfl
  rw [text_eq] at hnone ⊢
  refine hnone.left.append ((Name.noArrow_of_not_mem hclose).append hnone.right.right ?_) ?_
  · intro _ hhead
    exact absurd (hstarts _ hhead) (by decide)
  · intro _ hhead
    obtain ⟨c, l, rfl⟩ := List.exists_cons_of_ne_nil (Decimal.literal_ne_nil hliteral)
    obtain rfl : c = '>' := by simpa using hhead
    exact hclose List.mem_cons_self

/-! ### A number where there was none -/

def insertLiteral (s : Stretch) (literal : Text) : Stretch :=
  ⟨s.before, s.name, [' '], literal, s.after⟩

theorem text_insertLiteral (s : Stretch) (literal : Text) :
    (s.insertLiteral literal).text = (s.before ++ s.name) ++ (' ' :: (literal ++ s.after)) := by
  simp only [insertLiteral, text, List.append_assoc, List.cons_append, List.nil_append]

/-- What is inserted holds none of the characters that brackets, arrows and quotes are made of. -/
theorem not_mem_insertion (h : s.Reads) (hliteral : Decimal.isLiteral literal = true) {c : Char}
    (hblank : isBlank c = false) (hnumeral : Decimal.isNumeral c = false) :
    c ∉ ' ' :: (literal ++ s.after) := by
  simp only [List.mem_cons, List.mem_append, not_or]
  refine ⟨?_, Decimal.not_mem_literal hliteral hnumeral, fun hmem => ?_⟩
  · rintro rfl
    exact absurd hblank (by decide)
  · rw [isAllBlank_iff.mp h.trims.after_blank c hmem] at hblank
    exact absurd hblank (by decide)

/-- A stretch that has no number is read with the one that is put behind its name. -/
theorem Reads.insertLiteral (h : s.Reads) (hnil : s.literal = [])
    (hliteral : Decimal.isLiteral literal = true) : (s.insertLiteral literal).Reads := by
  have hspace : Text.isAllBlank [' '] = true := rfl
  refine ⟨?_, h.trims.of_after hspace, Or.inl ⟨hliteral, ?_, ?_, ?_⟩⟩
  · have hquote := h.no_quote
    rw [h.text_of_nil hnil] at hquote
    rw [text_insertLiteral]
    intro hmem
    rcases List.mem_append.mp hmem with hmem | hmem
    · exact hquote (List.mem_append_left _ hmem)
    · exact not_mem_insertion h hliteral rfl rfl hmem
  · rw [← List.append_assoc]
    exact (endsBlank_append (List.cons_ne_nil _ _)).mpr (endsBlank_of_isAllBlank hspace)
  · exact startsBlank_of_isAllBlank h.trims.after_blank
  · exact Cursor.numbers_eq_nil_of_isAllBlank h.trims.after_blank 0

end Stretch

namespace Layout

variable {l : Layout} {precision : Nat} {x : Float}

/-- Another literal in the place of the number is read as the number. -/
theorem Reads.withLiteral (h : l.Reads) (hname : l.stretch.name ≠ [])
    (hs : Decimal.isLiteral l.stretch.literal = true) {literal : Text}
    (hliteral : Decimal.isLiteral literal = true) :
    ({ l with stretch := { l.stretch with literal } } : Layout).Reads := by
  obtain ⟨-, hends, hstarts, -⟩ := h.stretch.number_of_ne_nil (Decimal.literal_ne_nil hs)
  have hbody : ∀ s : Stretch, frontText l.front ++ s.text
      = (frontText l.front ++ (s.before ++ (s.name ++ s.after))) ++ (s.literal ++ s.trailing) := by
    intro s
    rw [Stretch.text_eq]
    simp only [List.append_assoc]
  have hne : l.stretch.before ++ (l.stretch.name ++ l.stretch.after) ≠ [] := by
    simp [hname]
  refine h.withStretch hname (h.stretch.withLiteral hs hliteral) rfl rfl
    (Stretch.noArrow_withLiteral hstarts hliteral) ?_ ?_
  · have hnoLabel := h.noLabel
    rw [body, hbody] at hnoLabel
    rw [hbody]
    exact hnoLabel.exchange ((endsBlank_append hne).mpr hends) hstarts hs hliteral
  · intro hendsBody
    rw [body, hbody, ← List.append_assoc] at hendsBody
    rw [hbody, ← List.append_assoc]
    refine hendsBody.of_left fun hendsLiteral => ?_
    have hlast : ∀ c ∈ l.stretch.literal.getLast?, isBlank c = false :=
      fun c hc => Decimal.not_isBlank_of_mem hs c (List.mem_of_getLast? hc)
    exact not_endsBlank (Decimal.literal_ne_nil hs) hlast hendsLiteral.of_append

/-- A number put behind the names is read there, and they end where they ended. -/
theorem Reads.insertLiteral (h : l.Reads) (hname : l.stretch.name ≠ [])
    (hnil : l.stretch.literal = []) {literal : Text} (hliteral : Decimal.isLiteral literal = true) :
    ({ l with stretch := l.stretch.insertLiteral literal } : Layout).Reads := by
  have hbody : l.body = (frontText l.front ++ (l.stretch.before ++ l.stretch.name))
      ++ l.stretch.after := by
    rw [body, h.stretch.text_of_nil hnil]
    simp only [List.append_assoc]
  have hbody' : frontText l.front ++ (l.stretch.insertLiteral literal).text
      = (frontText l.front ++ (l.stretch.before ++ l.stretch.name)) ++
        (' ' :: (literal ++ l.stretch.after)) := by
    rw [Stretch.text_insertLiteral]
    simp only [List.append_assoc]
  refine h.withStretch hname (h.stretch.insertLiteral hnil hliteral) rfl rfl ?_ ?_ ?_
  · intro hnone
    rw [h.stretch.text_of_nil hnil] at hnone
    rw [Stretch.text_insertLiteral]
    refine hnone.left.append (Name.noArrow_of_not_mem ?_) fun _ hhead => ?_
    · exact Stretch.not_mem_insertion h.stretch hliteral rfl rfl
    · exact absurd hhead (by simp)
  · have hnoLabel := h.noLabel
    rw [hbody] at hnoLabel
    rw [hbody']
    exact hnoLabel.left.append_of_not_mem (Stretch.not_mem_insertion h.stretch hliteral rfl rfl)
  · intro hends
    rw [hbody] at hends
    rw [hbody', ← List.cons_append, ← List.append_assoc]
    exact hends.of_left (Stretch.name_not_endsBlank h.stretch hname _)

def setMaturity (l : Layout) (precision : Nat) (x : Float) : Layout :=
  { l with stretch := { l.stretch with literal := rewriteLiteral precision x l.stretch.literal } }

theorem applyAll_setMaturity (hliteral : l.stretch.literal ≠ []) :
    Replacement.applyAll (l.evolution.setMaturity precision x) l.line
      = (l.setMaturity precision x).line := by
  rw [Evolution.setMaturity, maturity_eq hliteral, line_eq_upToLiteral]
  exact (applyAll_writeNumber precision x _ _ _).trans
    (line_eq_upToLiteral (l.setMaturity precision x)).symm

theorem Reads.setMaturity (h : l.Reads) (hname : l.stretch.name ≠ []) (hliteral : l.stretch.literal ≠ [])
    (hx : x.isFinite = true) : (l.setMaturity precision x).Reads := by
  have hs := (h.stretch.number_of_ne_nil hliteral).1
  exact h.withLiteral hname hs (isLiteral_rewriteLiteral hx hs)

/-- Writing the maturity leaves a line that shows it, with the same names and the same label. -/
theorem Reads.exists_setMaturity (h : l.Reads) (hname : l.stretch.name ≠ [])
    (hx : x.isFinite = true) : ∃ l' : Layout, l'.Reads ∧
      Replacement.applyAll (l.evolution.setMaturity precision x) l.line = l'.line ∧
      ShowsMaturity precision x l'.evolution ∧
      l'.evolution.name.value = l.evolution.name.value ∧
      l'.evolution.override.map (·.name.value) = l.evolution.override.map (·.name.value) ∧
      l'.evolution.label.map LabelClause.values = l.evolution.label.map LabelClause.values := by
  by_cases hnil : l.stretch.literal = []
  · have hliteral := Decimal.isLiteral_fixed_of_isFinite hx precision
    have htrailing := h.stretch.trailing_eq_nil hnil
    refine ⟨{ l with stretch := l.stretch.insertLiteral (Decimal.fixed x precision) },
      h.insertLiteral hname hnil hliteral, ?_, ⟨_, maturity_eq (Decimal.literal_ne_nil hliteral),
        Decimal.agreesAt_value_fixed hx precision⟩, ?_, ?_, ?_⟩
    · rw [Evolution.setMaturity, maturity_eq_none hnil, insertPoint_eq, if_pos hnil, line_eq_upToNameEnd,
        Replacement.applyAll_insertion rfl, line_eq_upToNameEnd, hnil, htrailing]
      rfl
    · rw [name_eq, name_eq]
      rfl
    · rw [override_eq, override_eq]
      rfl
    · rw [label_eq, label_eq]
  · have hliteral := @isLiteral_rewriteLiteral precision x _ hx (h.stretch.number_of_ne_nil hnil).1
    refine ⟨l.setMaturity precision x, h.setMaturity hname hnil hx, applyAll_setMaturity hnil,
      ⟨_, maturity_eq (Decimal.literal_ne_nil hliteral), agreesAt_rewriteLiteral hx⟩, ?_, ?_, ?_⟩
    · rw [name_eq, name_eq]
      rfl
    · rw [override_eq, override_eq]
      rfl
    · rw [label_eq, label_eq]
      rfl

end Layout

end Evolution

end WardleyMap
