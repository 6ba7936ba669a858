import WardleyMap.Proofs.Edit.Override

/-!
# Edits of an evolved component

The three edits of an `evolve` line without quotes write its maturity, its label or its second name. Each of
them changes the text that all parts of the line are looked for in, and still shows what it was asked
to show and keeps the rest. A second name that was added can be taken away again, and then the document
is the one it was before.
-/

namespace WardleyMap

namespace Document

variable {doc doc' : Document} {config : Config} {n : Nat} {text : Text} {e : Evolution}

theorem statement_evolution (he : Evolution.ofLine? text = some e) :
    Statement.ofLine? .evolve text = some (.evolution e) :=
  congrArg (Option.map Statement.evolution) he

/-- An edit that turns the line into one with a layout is made, and the line is read as laid out. -/
theorem exists_edit_layout {edit : Edit} {rs : List Replacement} (hkind : edit.kind = .evolve)
    (hsupported : edit.unsupported? = none) (hline : doc.line? n = some text)
    (he : Evolution.ofLine? text = some e)
    (hplan : edit.plan? config.precision text (.evolution e) = some rs) {l : Evolution.Layout}
    (hl : l.Reads) (happly : Replacement.applyAll rs text = l.line) : ∃ doc',
      doc.edit config n edit = .ok doc' ∧ doc.Writes n l.line doc' ∧
      Evolution.ofLine? l.line = some l.evolution := by
  have hstatement : Statement.ofLine? edit.kind text = some (.evolution e) := by
    rw [hkind]
    exact statement_evolution he
  obtain ⟨doc', hedit, hwrites⟩ := exists_edit hsupported hline hstatement hplan
  rw [happly] at hwrites
  exact ⟨doc', hedit, hwrites, hl.ofLine?_eq⟩

/-- An edit that takes back what another edit did to the line gives back the document. -/
theorem edit_restores {edit revert : Edit} {rs : List Replacement} {text' : Text} {e' : Evolution}
    (h : doc.edit config n edit = .ok doc') (hline : doc.line? n = some text)
    (hwrites : doc.Writes n text' doc') (he' : Evolution.ofLine? text' = some e')
    (hkind : revert.kind = .evolve) (hsupported : revert.unsupported? = none)
    (hplan : revert.plan? config.precision text' (.evolution e') = some rs)
    (happly : Replacement.applyAll rs text' = text) : doc'.edit config n revert = .ok doc := by
  obtain ⟨text₁, new, hline₁, hnew, hwith, hfits⟩ := line?_of_edit h
  obtain rfl := Option.some.inj (hline.symm.trans hline₁)
  refine edit_eq_ok_iff.mpr ⟨hsupported, text', .evolution e', rs, hwrites.line, ?_, hplan, ?_⟩
  · rw [hkind]
    exact statement_evolution he'
  · rw [happly]
    exact withLine?_restore hwith hline hfits

/-- The edits of an evolved component, on a line without quotes that has a name, and a second name if
it has an arrow. -/
theorem edit_evolution (hline : doc.line? n = some text) (hquote : '"' ∉ text)
    (he : Evolution.ofLine? text = some e) (hbase : e.name.value ≠ [])
    (hoverride : ∀ clause ∈ e.override, clause.name.value ≠ []) (expected : Text) :
    (∀ maturity : Float, maturity.isFinite = true → ∃ doc' text' e',
      doc.edit config n (.moveEvolution expected maturity) = .ok doc' ∧ doc.Writes n text' doc' ∧
      Evolution.ofLine? text' = some e' ∧ e'.ShowsMaturity config.precision maturity ∧
      e'.name.value = e.name.value ∧
      e'.override.map (·.name.value) = e.override.map (·.name.value) ∧
      e'.label.map LabelClause.values = e.label.map LabelClause.values) ∧
    (∀ offset : Vec, offset.dx.isFinite = true → offset.dy.isFinite = true → ∃ doc' text' e',
      doc.edit config n (.setLabel .evolve expected offset) = .ok doc' ∧ doc.Writes n text' doc' ∧
      Evolution.ofLine? text' = some e' ∧ e'.ShowsLabel config.precision offset.dx offset.dy ∧
      e'.name.value = e.name.value ∧
      e'.override.map (·.name.value) = e.override.map (·.name.value) ∧
      e'.maturity.map Number.value = e.maturity.map Number.value) ∧
    (e.maturity.isSome = true → ∀ newName : Text, newName ≠ [] → Name.needsQuoting newName = false →
      newName ≠ e.name.value → ∃ doc' text' e',
      doc.edit config n (.setOverride expected newName) = .ok doc' ∧ doc.Writes n text' doc' ∧
      Evolution.ofLine? text' = some e' ∧ e'.override.map (·.name.value) = some newName ∧
      e'.name.value = e.name.value ∧
      e'.maturity.map Number.value = e.maturity.map Number.value ∧
      e'.label.map LabelClause.values = e.label.map LabelClause.values ∧
      (e.override = none → ∀ expected' : Text,
        doc'.edit config n (.setOverride expected' e.name.value) = .ok doc)) := by
  obtain ⟨l, hl, rfl, rfl⟩ := Evolution.exists_layout he hquote
  have hname : l.stretch.name ≠ [] := by
    cases hfront : l.front with
    | none =>
        rw [Evolution.Layout.name_of_none hfront] at hbase
        exact hbase
    | some f => exact hoverride _ (Evolution.Layout.override_of_some hfront)
  refine ⟨fun maturity hfinite => ?_, fun offset hdx hdy => ?_,
    fun hmaturity newName hne hquoting hdiffers => ?_⟩
  · obtain ⟨l', hl', happly, hshows, hkept⟩ :=
      @Evolution.Layout.Reads.exists_setMaturity l config.precision maturity hl hname hfinite
    have hplan : (Edit.moveEvolution expected maturity).plan? config.precision l.line
        (.evolution l.evolution) = some (l.evolution.setMaturity config.precision maturity) := rfl
    obtain ⟨doc', hedit, hwrites, hread⟩ := exists_edit_layout rfl rfl hline he hplan hl' happly
    exact ⟨doc', _, _, hedit, hwrites, hread, hshows, hkept⟩
  · have hfinite : ∀ x ∈ [offset.dx, offset.dy], x.isFinite = true := by
      intro x hx
      simp only [List.mem_cons, List.not_mem_nil, or_false] at hx
      rcases hx with rfl | rfl
      · exact hdx
      · exact hdy
    obtain ⟨l', hl', happly, hshows, hkept⟩ :=
      @Evolution.Layout.Reads.exists_setLabel l config.precision _ _ hl hname hfinite
    have hplan : (Edit.setLabel .evolve expected offset).plan? config.precision l.line
        (.evolution l.evolution)
          = some (l.evolution.setLabel config.precision offset.dx offset.dy) := rfl
    obtain ⟨doc', hedit, hwrites, hread⟩ := exists_edit_layout rfl rfl hline he hplan hl' happly
    exact ⟨doc', _, _, hedit, hwrites, hread, hshows, hkept⟩
  · obtain ⟨l', hl', happly, hshows, hsame, hmaturity', hlabel, hrevert⟩ :=
      hl.exists_setOverride hname hmaturity (Name.isBare_iff.mp hquoting) hne hdiffers
    have hplan : (Edit.setOverride expected newName).plan? config.precision l.line
        (.evolution l.evolution) = some (l.evolution.setOverride newName) := rfl
    obtain ⟨doc', hedit, hwrites, hread⟩ := exists_edit_layout rfl rfl hline he hplan hl' happly
    refine ⟨doc', _, _, hedit, hwrites, hread, hshows, hsame, hmaturity', hlabel,
      fun hnone expected' => ?_⟩
    exact edit_restores hedit hline hwrites hread rfl rfl rfl (hrevert hnone)

/-- A second name that is the word of a label does not hide the label, and can be taken away again. -/
theorem edit_evolution_named_label :
    let text : Text := "evolve A 0.5 label [1, 2]".toList
    let doc : Document := ⟨[text]⟩
    '"' ∉ text ∧ ∃ e doc' text' e', Evolution.ofLine? text = some e ∧ e.name.value = ['A'] ∧
      e.override = none ∧ e.maturity.isSome = true ∧
      (∃ moved, doc.edit {} 1 (.moveEvolution ['A'] 0.75) = .ok moved) ∧
      (∃ moved, doc.edit {} 1 (.setLabel .evolve ['A'] ⟨-3.5, 4⟩) = .ok moved) ∧
      doc.edit {} 1 (.setOverride ['A'] "label".toList) = .ok doc' ∧ doc.Writes 1 text' doc' ∧
      Evolution.ofLine? text' = some e' ∧ e'.override.map (·.name.value) = some "label".toList ∧
      e'.maturity.map Number.value = e.maturity.map Number.value ∧
      e'.label.map LabelClause.values = e.label.map LabelClause.values ∧
      doc'.edit {} 1 (.setOverride "label".toList ['A']) = .ok doc := by
  intro text doc
  have hline : doc.line? 1 = some text := rfl
  obtain ⟨e, he⟩ : ∃ e, Evolution.ofLine? text = some e :=
    Option.isSome_iff_exists.mp (by decide +kernel)
  have hparts : (Evolution.ofLine? text).map (fun e => (e.name.value, e.override.isNone,
      e.maturity.isSome)) = some (['A'], true, true) := by
    decide +kernel
  rw [he, Option.map_some, Option.some.injEq, Prod.mk.injEq, Prod.mk.injEq,
    Option.isNone_iff_eq_none] at hparts
  obtain ⟨hname, hnone, hmaturity⟩ := hparts
  obtain ⟨hmove, hlabels, hrename⟩ :=
    @edit_evolution doc {} 1 text e hline (by decide) he (by simp [hname]) (by simp [hnone]) ['A']
  obtain ⟨moved, _, _, hmoved, -⟩ := hmove 0.75 (by decide +kernel)
  obtain ⟨labelled, _, _, hlabelled, -⟩ :=
    hlabels ⟨-3.5, 4⟩ (by decide +kernel) (by decide +kernel)
  obtain ⟨doc', text', e', hedit, hwrites, hread, hshows, -, hsame, hlabel, hrevert⟩ :=
    hrename hmaturity "label".toList (by decide) (by decide +kernel) (by simp [hname])
  have hback := hrevert hnone "label".toList
  rw [hname] at hback
  exact ⟨by decide, e, doc', text', e', he, hname, hnone, hmaturity, ⟨moved, hmoved⟩,
    ⟨labelled, hlabelled⟩, hedit, hwrites, hread, hshows, hsame, hlabel, hback⟩

end Document

end WardleyMap
