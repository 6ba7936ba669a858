import WardleyMap.Proofs.Edit.Evolution
import WardleyMap.Proofs.Statement.QuotedOverride

/-!
# Writing a quoted name behind an arrow

A name that is written between quotes ought to be one part of its line, whatever it holds. Behind an arrow
it is, if there is a gap between the two. The edit itself writes none: it puts the name where the old one
stood, or right behind an arrow of its own. So there are names that do not come back, and
`Document.edit_quoted_override` says for which names and lines that is so.
-/

namespace WardleyMap

open Text

namespace Evolution

/-- Writing the name as the override leaves a line from which the name, the maturity and the label are read:
the override is that name already, or a gap divides it from its arrow, or else the quoted name has
no word at which a label starts, and does not hide the label behind it. -/
def QuotesHold (e : Evolution) (newName : Text) : Prop :=
  e.override.map (·.name.value) = some newName ∨
  (∃ clause ∈ e.override, clause.arrow.stop < clause.name.span.start) ∨
  (NoLabel (Name.encode newName) ∧ (e.label = none ∨ ¬EndsBlank (Name.escape newName)))

theorem not_reverts {e : Evolution} {newName : Text} (hblank : newName.isAllBlank = false)
    (hdiffers : newName ≠ e.name.value) : (newName.isAllBlank || e.name.value == newName) = false := by
  rw [hblank, Bool.false_or]
  exact beq_eq_false_iff_ne.mpr hdiffers.symm

theorem setOverride_eq_nil {e : Evolution} {newName : Text} (hblank : newName.isAllBlank = false)
    (hdiffers : newName ≠ e.name.value) (hsame : e.override.map (·.name.value) = some newName) :
    e.setOverride newName = [] := by
  obtain ⟨clause, hclause, hvalue⟩ := Option.map_eq_some_iff.mp hsame
  simp only [setOverride, hclause, not_reverts hblank hdiffers]
  rw [if_neg Bool.false_ne_true, if_pos hvalue]

namespace Layout

variable {l : Layout} {newName : Text}

/-- What stands before a quoted name that takes the place of the second name, or is added as one. -/
def quotedFront (l : Layout) : Front :=
  match l.front with
  | none => ⟨l.stretch.before, l.stretch.name, [], []⟩
  | some f => { f with gap := f.gap ++ l.stretch.before }

def quoted (l : Layout) (newName : Text) : QuotedLayout :=
  ⟨l.lead, l.gap, l.quotedFront, newName, l.stretch.after, l.stretch.literal, l.stretch.trailing, l.tail⟩

theorem body_eq_behind (l : Layout) (newName : Text) : l.body
    = (frontText l.front ++ (l.stretch.before ++ l.stretch.name)) ++ (l.quoted newName).behind := by
  simp only [body, Stretch.text, QuotedLayout.behind, quoted, List.append_assoc]

theorem line_quoted_of_none (hfront : l.front = none) :
    (l.insertName (Name.encode newName)).line = (l.quoted newName).line := by
  have hbody := l.body_insertName (Name.encode newName)
  simp only [line, opening, hbody, QuotedLayout.line, QuotedLayout.opening, QuotedLayout.body,
    QuotedLayout.behind, quoted, quotedFront, hfront, Front.text, Front.upToArrow, List.append_assoc,
    List.nil_append]
  rfl

theorem line_quoted_of_some {f : Front} (hfront : l.front = some f) :
    (l.withName (Name.encode newName)).line = (l.quoted newName).line := by
  simp only [line, opening, body, withName, QuotedLayout.line, QuotedLayout.opening, QuotedLayout.body,
    QuotedLayout.behind, quoted, quotedFront, hfront, frontText, Option.map_some, Option.getD_some,
    Front.text, Front.upToArrow, Stretch.text, List.append_assoc]

theorem name_quotedFront (l : Layout) : l.quotedFront.name = l.evolution.name.value := by
  rw [name_eq, quotedFront]
  cases l.front <;> rfl

theorem text_quotedFront_of_none (hfront : l.front = none) :
    l.quotedFront.text = (l.stretch.before ++ l.stretch.name) ++ Name.arrow := by
  simp only [quotedFront, hfront, Front.text, Front.upToArrow, List.append_nil]

theorem text_quotedFront_of_some {f : Front} (hfront : l.front = some f) :
    l.quotedFront.text = f.text ++ l.stretch.before := by
  simp only [quotedFront, hfront, Front.text, Front.upToArrow, List.append_assoc]

/-- The front of a quoted override starts as the names of the line do. -/
theorem head?_quotedFront (hname : l.stretch.name ≠ []) (rest : Text) :
    l.quotedFront.text.head? = (l.body ++ rest).head? := by
  cases hfront : l.front with
  | none =>
      obtain ⟨c, t, ht⟩ :=
        List.exists_cons_of_ne_nil (List.append_ne_nil_of_right_ne_nil l.stretch.before hname)
      have hbody : l.body = (l.stretch.before ++ l.stretch.name) ++
          (l.stretch.after ++ (l.stretch.literal ++ l.stretch.trailing)) := by
        simp only [body, hfront, frontText, Option.map_none, Option.getD_none, Stretch.text,
          List.append_assoc, List.nil_append]
      rw [text_quotedFront_of_none hfront, hbody, ht]
      rfl
  | some f =>
      have hne : f.text ≠ [] := by simp [Front.text, Name.arrow]
      obtain ⟨c, t, ht⟩ := List.exists_cons_of_ne_nil hne
      rw [text_quotedFront_of_some hfront, body, hfront, frontText, Option.map_some, Option.getD_some, ht]
      rfl

theorem Reads.noLabel_quotedFront (h : l.Reads) : NoLabel l.quotedFront.text := by
  have hnoLabel := h.noLabel
  cases hfront : l.front with
  | none =>
      rw [l.body_eq_behind [], hfront] at hnoLabel
      rw [text_quotedFront_of_none hfront]
      exact hnoLabel.left.append_of_not_mem (by decide)
  | some f =>
      rw [l.body_eq_behind [], hfront, ← List.append_assoc] at hnoLabel
      rw [text_quotedFront_of_some hfront]
      exact hnoLabel.left.left

/-- If all blanks are spaces or tabs, the front of a quoted override is read as it was written. -/
theorem Reads.quotedFront (h : l.Reads)
    (hspaces : ∀ ch ∈ l.line, isBlank ch = true → isSpace ch = true) : l.quotedFront.Reads := by
  have hleads := h.leads
  cases hfront : l.front with
  | none =>
      rw [hfront] at hleads
      have hquote := h.no_quote
      rw [l.body_eq_behind [], hfront] at hquote
      rw [Layout.quotedFront, hfront]
      refine ⟨?_, h.stretch.trims.of_after rfl, ?_, by simp⟩
      · rw [Front.upToArrow, List.append_nil]
        exact fun hmem => hquote (List.mem_append_left _ hmem)
      · have hnoArrow : Name.NoArrow l.stretch.text := hleads
        rw [Stretch.text, ← List.append_assoc] at hnoArrow
        rw [Front.upToArrow, List.append_nil]
        exact hnoArrow.left
  | some f =>
      rw [hfront] at hleads
      rw [Layout.quotedFront, hfront]
      refine ⟨hleads.1.no_quote, hleads.1.trims, hleads.1.noArrow, fun ch hch => ?_⟩
      rcases List.mem_append.mp hch with hch | hch
      · exact hleads.1.isSpace_gap ch hch
      · refine hspaces ch ?_ (isAllBlank_iff.mp h.stretch.trims.before_blank ch hch)
        simp only [line, body, Stretch.text, List.mem_append]
        exact .inr (.inl (.inr (.inl hch)))

/-- A line without quotes whose blanks are spaces and tabs can be given a quoted name. -/
theorem Reads.quoted (h : l.Reads) (hname : l.stretch.name ≠ []) (hliteral : l.stretch.literal ≠ [])
    (hquote : '"' ∉ l.line) (hspaces : ∀ ch ∈ l.line, isBlank ch = true → isSpace ch = true)
    (hquoting : Name.needsQuoting newName = true) (hbackslash : '\\' ∉ newName)
    (hreturn : '\r' ∉ newName) : (l.quoted newName).Reads := by
  obtain ⟨hs, -, hstarts, -⟩ := h.stretch.number_of_ne_nil hliteral
  have hafter := Stretch.after_ne_nil h.stretch hname hliteral
  have hbody := l.body_eq_behind newName
  have hblank : StartsBlank (l.quoted newName).behind := by
    obtain ⟨c, t, ht⟩ := List.exists_cons_of_ne_nil hafter
    intro d hd
    have hblanks := isAllBlank_iff.mp h.stretch.trims.after_blank
    rw [ht] at hblanks
    simp only [QuotedLayout.behind, Layout.quoted, ht] at hd
    obtain rfl : c = d := by simpa using hd
    exact hblanks c List.mem_cons_self
  have hnoLabel : NoLabel (l.quoted newName).behind := by
    have := h.noLabel
    rw [hbody] at this
    exact this.right (.inr hblank)
  have hhead := l.head?_quotedFront hname l.tail
  refine ⟨h.isSpace_lead, h.isSpace_gap, ?_, ?_, h.quotedFront hspaces, h.noLabel_quotedFront, hquoting,
    hbackslash, hreturn, fun ch hch => ?_, hs, hstarts, hnoLabel, fun hmem => ?_,
    h.tail.imp_right fun htail => ⟨?_, htail.2⟩⟩
  · exact fun ch hch => h.head ch (hhead ▸ hch)
  · exact h.boundary.imp_right fun hboundary ch hch => hboundary ch (hhead ▸ hch)
  · refine hspaces ch ?_ (isAllBlank_iff.mp h.stretch.trims.after_blank ch hch)
    simp only [line, body, Stretch.text, List.mem_append]
    exact .inr (.inl (.inr (.inr (.inr (.inl hch)))))
  · refine hquote ?_
    rw [line, hbody, List.append_assoc]
    exact List.mem_append_right _ (List.mem_append_right _ hmem)
  · rw [hbody] at htail
    exact htail.1.of_append

theorem label_eq_none_iff (h : l.Reads) : l.evolution.label = none ↔ l.tail = [] := by
  change l.tailPlace.label? = none ↔ _
  rw [tailPlace]
  rcases h.tail with htail | ⟨-, gap, f, g, rest, hgap, htail⟩
  · rw [htail, Cursor.label?_nil]
    simp
  · rw [htail, Cursor.label?_labelled hgap]
    simp [Field.labelled]

/-- There is a gap behind the arrow of the line, and so in front of the quoted name. -/
theorem gap_quotedFront_iff (l : Layout) : l.quotedFront.gap ≠ [] ↔
    ∃ clause ∈ l.evolution.override, clause.arrow.stop < clause.name.span.start := by
  cases hfront : l.front with
  | none => simp [quotedFront, hfront, override_of_none hfront]
  | some f =>
      have hstart : l.upToName.length
          = l.opening.length + f.upToArrow.length + 2 + (f.gap ++ l.stretch.before).length := by
        simp only [upToName, hfront, frontText, Option.map_some, Option.getD_some, Front.text, Name.arrow,
          List.length_append, List.length_cons, List.length_nil]
        omega
      rw [override_of_some hfront]
      simp only [quotedFront, hfront, Option.mem_def, Option.some.injEq, exists_eq_left', Front.arrow,
        hstart, ← List.length_pos_iff]
      omega

theorem holds_iff (h : l.Reads) (hother : l.evolution.override.map (·.name.value) ≠ some newName) :
    (l.quoted newName).Holds ↔ l.evolution.QuotesHold newName := by
  rw [QuotedLayout.Holds, QuotesHold, or_iff_right hother, ← gap_quotedFront_iff, label_eq_none_iff h]
  rfl

/-- The edit writes the quoted name behind the front that `quotedFront` says. -/
theorem applyAll_setOverride (hblank : newName.isAllBlank = false)
    (hdiffers : newName ≠ l.evolution.name.value)
    (hother : l.evolution.override.map (·.name.value) ≠ some newName) :
    Replacement.applyAll (l.evolution.setOverride newName) l.line = (l.quoted newName).line := by
  have hkeeps := not_reverts hblank hdiffers
  cases hfront : l.front with
  | none =>
      rw [← line_quoted_of_none hfront, ← applyAll_insertName l hfront]
      rw [name_of_none hfront] at hkeeps
      simp only [Evolution.setOverride, override_of_none hfront, name_of_none hfront, hkeeps]
      rfl
  | some f =>
      rw [override_of_some hfront, Option.map_some, ne_eq, Option.some.injEq] at hother
      rw [← line_quoted_of_some hfront, ← applyAll_withName]
      simp only [Evolution.setOverride, override_of_some hfront, hkeeps]
      rw [if_neg Bool.false_ne_true, if_neg hother]

end Layout

end Evolution

namespace Document

variable {doc : Document} {config : Config} {n : Nat} {text : Text} {e : Evolution}

/-- Writing a name that has to be quoted over an `evolve` line without quotes. The first name stays; the new
name, the maturity and the label are read from the new line exactly if the quotes hold. -/
theorem edit_quoted_override (hline : doc.line? n = some text) (hquote : '"' ∉ text)
    (hspaces : ∀ ch ∈ text, isBlank ch = true → isSpace ch = true)
    (he : Evolution.ofLine? text = some e) (hbase : e.name.value ≠ [])
    (hoverride : ∀ clause ∈ e.override, clause.name.value ≠ []) (hmaturity : e.maturity.isSome = true)
    {newName : Text} (hquoting : Name.needsQuoting newName = true)
    (hblank : newName.isAllBlank = false) (hdiffers : newName ≠ e.name.value)
    (hbackslash : '\\' ∉ newName) (hreturn : '\r' ∉ newName) (expected : Text) :
    ∃ doc' text' e', doc.edit config n (.setOverride expected newName) = .ok doc' ∧
      doc.Writes n text' doc' ∧ Evolution.ofLine? text' = some e' ∧
      e'.name.value = e.name.value ∧
      (e'.override.map (·.name.value) = some newName ∧
        e'.maturity.map Number.value = e.maturity.map Number.value ∧
        e'.label.map LabelClause.values = e.label.map LabelClause.values ↔ e.QuotesHold newName) := by
  obtain ⟨l, hl, rfl, rfl⟩ := Evolution.exists_layout he hquote
  have hname : l.stretch.name ≠ [] := by
    cases hfront : l.front with
    | none =>
        rw [Evolution.Layout.name_of_none hfront] at hbase
        exact hbase
    | some f => exact hoverride _ (Evolution.Layout.override_of_some hfront)
  have hliteral : l.stretch.literal ≠ [] := by
    intro hnil
    rw [Evolution.Layout.maturity_eq_none hnil] at hmaturity
    exact absurd hmaturity (by decide)
  have hplan : (Edit.setOverride expected newName).plan? config.precision l.line
      (.evolution l.evolution) = some (l.evolution.setOverride newName) := rfl
  have hstatement : Statement.ofLine? (Edit.setOverride expected newName).kind l.line
      = some (.evolution l.evolution) := statement_evolution he
  obtain ⟨doc', hedit, hwrites⟩ := exists_edit rfl hline hstatement hplan
  by_cases hother : l.evolution.override.map (·.name.value) = some newName
  · rw [Evolution.setOverride_eq_nil hblank hdiffers hother, Replacement.applyAll_nil] at hwrites
    exact ⟨doc', _, _, hedit, hwrites, he, rfl, iff_of_true ⟨hother, rfl, rfl⟩ (.inl hother)⟩
  · rw [Evolution.Layout.applyAll_setOverride hblank hdiffers hother] at hwrites
    have hreads := hl.quoted hname hliteral hquote hspaces hquoting hbackslash hreturn
    have hlabel := Evolution.Layout.label_eq_none_iff hl
    rw [← Evolution.Layout.holds_iff hl hother]
    by_cases hholds : (l.quoted newName).Holds
    · refine ⟨doc', _, _, hedit, hwrites, hreads.ofLine?_of_holds hholds, l.name_quotedFront,
        iff_of_true ⟨rfl, ?_, ?_⟩ hholds⟩
      · rw [Evolution.Layout.maturity_eq hliteral]
        rfl
      · exact Cursor.map_values_label? _ _ l.tail
    · obtain ⟨e', hread, hname', hlost⟩ := hreads.exists_of_not_holds hholds
      refine ⟨doc', _, e', hedit, hwrites, hread, ?_, iff_of_false (fun hkept => ?_) hholds⟩
      · rw [hname']
        exact l.name_quotedFront
      · obtain ⟨hshows, -, hsame⟩ := hkept
        rcases hlost with hlost | ⟨htail, hnone⟩
        · exact hlost hshows
        · rw [hnone, Option.map_none, eq_comm, Option.map_eq_none_iff, hlabel] at hsame
          exact htail hsame

theorem isSpace_of_all {s : Text} (h : s.all (fun ch => !isBlank ch || isSpace ch) = true) :
    ∀ ch ∈ s, isBlank ch = true → isSpace ch = true := by
  intro ch hch hblank
  have hspace := List.all_eq_true.mp h ch hch
  rwa [hblank] at hspace

/-- A name with a line break in it is read back from behind the arrow, in front of a label. -/
theorem edit_quoted_override_break :
    let text : Text := "evolve A 0.5 label [1, 2]".toList
    let newName : Text := ['B', '\n', 'C']
    let doc : Document := ⟨[text]⟩
    '"' ∉ text ∧ (∀ ch ∈ text, isBlank ch = true → isSpace ch = true) ∧
      Name.needsQuoting newName = true ∧ newName.isAllBlank = false ∧ '\\' ∉ newName ∧ '\r' ∉ newName ∧
      ∃ e doc' text' e', Evolution.ofLine? text = some e ∧ e.name.value = ['A'] ∧ e.override = none ∧
      e.maturity.isSome = true ∧ e.QuotesHold newName ∧
      doc.edit {} 1 (.setOverride ['A'] newName) = .ok doc' ∧ doc.Writes 1 text' doc' ∧
      Evolution.ofLine? text' = some e' ∧ e'.name.value = ['A'] ∧
      e'.override.map (·.name.value) = some newName ∧
      e'.maturity.map Number.value = e.maturity.map Number.value ∧
      e'.label.map LabelClause.values = e.label.map LabelClause.values := by
  intro text newName doc
  have hspaces := isSpace_of_all (s := text) (by decide +kernel)
  obtain ⟨e, he⟩ : ∃ e, Evolution.ofLine? text = some e :=
    Option.isSome_iff_exists.mp (by decide +kernel)
  have hparts : (Evolution.ofLine? text).map (fun e => (e.name.value, e.override.isNone,
      e.maturity.isSome)) = some (['A'], true, true) := by
    decide +kernel
  rw [he, Option.map_some, Option.some.injEq, Prod.mk.injEq, Prod.mk.injEq,
    Option.isNone_iff_eq_none] at hparts
  obtain ⟨hname, hnone, hmaturity⟩ := hparts
  have hholds : e.QuotesHold newName := by
    refine .inr (.inr ⟨noLabel_of_not_mem (by decide), .inr fun hblank => ?_⟩)
    exact absurd (hblank 'C' (by decide)) (by decide)
  obtain ⟨doc', text', e', hedit, hwrites, hread, hbase, hiff⟩ :=
    @edit_quoted_override doc {} 1 text e rfl (by decide) hspaces he (by simp [hname])
      (by simp [hnone]) hmaturity newName (by decide) (by decide) (by rw [hname]; decide) (by decide)
      (by decide) ['A']
  obtain ⟨hshows, hsame, hlabel⟩ := hiff.mpr hholds
  exact ⟨by decide, hspaces, by decide, by decide, by decide, by decide, e, doc', text', e', he, hname,
    hnone, hmaturity, hholds, hedit, hwrites, hread, hbase.trans hname, hshows, hsame, hlabel⟩

/-- A label inside the quotes is taken for the label of the line: the name ends in front of it, and the
maturity behind the quotes is lost. -/
theorem edit_quoted_override_inner_label :
    let text : Text := "evolve A 0.5".toList
    let newName : Text := "B label [1, 2]".toList
    let text' : Text := "evolve A->\"B label [1, 2]\" 0.5".toList
    '"' ∉ text ∧ (∀ ch ∈ text, isBlank ch = true → isSpace ch = true) ∧
      Name.needsQuoting newName = true ∧ newName.isAllBlank = false ∧ '\\' ∉ newName ∧ '\r' ∉ newName ∧
      (Evolution.ofLine? text).map (fun e => (e.name.value, e.override.isNone, e.maturity.isSome))
        = some (['A'], true, true) ∧
      (⟨[text]⟩ : Document).edit {} 1 (.setOverride ['A'] newName) = .ok ⟨[text']⟩ ∧
      (Evolution.ofLine? text').map (fun e => (e.override.map (·.name.value), e.maturity.isSome,
        e.label.isSome)) = some (some ['"', 'B'], false, true) := by
  intro text newName text'
  exact ⟨by decide, isSpace_of_all (by decide +kernel), by decide +kernel, by decide, by decide,
    by decide, by decide +kernel, by decide +kernel, by decide +kernel⟩

end Document

end WardleyMap
