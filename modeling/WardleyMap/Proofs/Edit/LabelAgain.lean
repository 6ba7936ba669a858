import WardleyMap.Proofs.Edit.Evolution
import WardleyMap.Proofs.Statement.BehindOverride
import WardleyMap.Proofs.Statement.Columns

/-!
# Writing the label of an evolved component twice

A label that is found is written in place, so it is found again. A label that is put into the line is found
unless a quote is open there in the eyes of the search for labels, which takes a quoted name for one token
only where a token can start: behind an arrow none can, and a quoted name that ends in a blank is cut there
so that its last quote opens a token of its own. `Evolution.HidesLabel` is that exception. A label that is
put there is never read, and writing it again puts another one beside it. The names and the number are read
alike in both cases.
-/

namespace WardleyMap

open Text

namespace Evolution

/-- A label that is put into the line is hidden by a quote that is open where it is put. The line is read
from the cursor on. -/
def HidesLabel (e : Evolution) (c : Cursor) : Prop :=
  e.label = none ∧ (c.clip e.insertPoint).LeavesOpen

variable {precision : Nat} {dx dy : Float}

/-- A label that was found is found again after it has been written. -/
theorem exists_setLabel_of_some {c : Cursor} {e : Evolution} {label : LabelClause} (he : ofCursor c = e)
    (h : c.label? = some label) {opening : Text} (hcol : c.col = opening.length)
    (hfinite : ∀ x ∈ [dx, dy], x.isFinite = true) :
    ∃ rest label', Replacement.applyAll (e.setLabel precision dx dy) (opening ++ c.rest)
        = opening ++ rest ∧ rest.head? = c.rest.head? ∧
      ofCursor ⟨c.col, rest⟩ = { e with label := some label' } ∧
      ShowsLabel precision dx dy { e with label := some label' } := by
  obtain ⟨col, s⟩ := c
  obtain ⟨before, gap, f, g, behind, hgap, hrest, rfl, hbefore⟩ := Cursor.exists_beforeLabel h
  obtain rfl : s = before ++ (Field.labelled gap [f, g] ++ behind) := hrest
  obtain ⟨f', g', hagree, happly, -⟩ := @Field.exists_writeLabelled precision [dx, dy] gap f g rfl hfinite
    (opening ++ before) (col + before.length) (by rw [List.length_append, ← hcol]) behind
  have hread (f g : Field) : ofCursor ⟨col, before ++ (Field.labelled gap [f, g] ++ behind)⟩
      = { ofBody ⟨col, before⟩ none with
          label := some (Field.labelClause (col + before.length) gap f g) } := by
    have hlabel := hbefore.found gap f g behind col hgap
    have htail := Cursor.label?_labelled hgap f g behind (col + before.length)
    rw [ofCursor_of_label? (hlabel.trans htail.symm) (.inr ⟨gap, f, g, behind, hgap, rfl⟩), htail,
      ofBody_withLabel]
  rw [hread] at he
  subst he
  refine ⟨before ++ (Field.labelled gap [f', g'] ++ behind),
    Field.labelClause (col + before.length) gap f' g', ?_, ?_, hread f' g', showsLabel_of_agree rfl hagree⟩
  · rw [List.append_assoc, List.append_assoc] at happly
    exact happly
  · cases before with
    | nil => rfl
    | cons ch before => rfl

theorem isPlain_spaced (f g : Field) : Name.IsPlain (' ' :: Field.labelled [' '] [f, g]) :=
  Name.isPlain_cons.mpr ⟨by decide, Field.isPlain_labelled isSpace_of_mem_space _⟩

namespace CutAtPoint

variable {e : Evolution} {col : Nat} {front behind : Text}

/-- A label that is put into the line is the first one there if no quote is open where it is put, and else
there is none. -/
theorem label?_put (h : CutAtPoint e col front behind)
    (hnone : (⟨col, front ++ behind⟩ : Cursor).label? = none) (f g : Field) :
    let put := Field.labelled [' '] [f, g] ++ behind
    (¬Cursor.LeavesOpen ⟨col, front⟩ → (⟨col, front ++ ' ' :: put⟩ : Cursor).label?
      = some (Field.labelClause (col + front.length + 1) [' '] f g)) ∧
    (Cursor.LeavesOpen ⟨col, front⟩ → (⟨col, front ++ ' ' :: put⟩ : Cursor).label? = none) := by
  intro put
  have hno : Cursor.NoLabelWith ⟨col, front⟩ (' ' :: put) := (Cursor.noLabelWith_of_label? hnone).put _
  refine ⟨fun hopen => ?_,
    fun hopen => Cursor.label?_of_leavesOpen hopen h.getLast?_ne (isPlain_spaced f g) hno hnone⟩
  rw [Cursor.label?_of_not_leavesOpen rfl hopen hno]
  exact Cursor.label?_labelled isSpace_of_mem_space f g behind _

/-- Whether or not the label is found, the names and the number in front of it are read as before. -/
theorem ofCursor_put (h : CutAtPoint e col front behind)
    (hnone : (⟨col, front ++ behind⟩ : Cursor).label? = none) (f g : Field) :
    let put := Field.labelled [' '] [f, g] ++ behind
    (¬Cursor.LeavesOpen ⟨col, front⟩ → ofCursor ⟨col, front ++ ' ' :: put⟩
      = { e with label := some (Field.labelClause (col + front.length + 1) [' '] f g) }) ∧
    (Cursor.LeavesOpen ⟨col, front⟩ → ofCursor ⟨col, front ++ ' ' :: put⟩ = { e with label := none }) := by
  intro put
  have hunquoted {x t : Text} (hx : Name.IsPlain x) (ht : Name.quotedLength? (front ++ t) = none) :
      Name.quotedLength? (front ++ (x ++ t)) = none :=
    Name.quotedLength?_eq_none_of_insertion h.front_ne_nil h.getLast?_ne hx ht
  obtain ⟨hfound, hhidden⟩ := h.label?_put hnone f g
  refine ⟨fun hopen => ?_, fun hopen => ?_⟩
  · have hsplit : front ++ ' ' :: put = front ++ [' '] ++ put := List.append_cons ..
    have hcol : col + front.length + 1 = col + (front ++ [' ']).length := by
      rw [List.length_append, List.length_singleton, Nat.add_assoc]
    have hread := hfound hopen
    have htail := Cursor.label?_labelled isSpace_of_mem_space f g behind (col + front.length + 1)
    rw [hsplit] at hread ⊢
    rw [hcol] at hread htail ⊢
    rw [ofCursor_of_label? (hread.trans htail.symm)
      (.inr ⟨[' '], f, g, behind, isSpace_of_mem_space, rfl⟩), htail]
    refine h.ofBody_put [] _ (by simp) fun hquote => Name.quotedLength?_eq_none_of_prefix (t := behind) ?_
    rw [List.append_assoc]
    exact hunquoted (by simp [Name.IsPlain]) hquote
  · rw [QuotedLayout.ofCursor_of_none (hhidden hopen)]
    exact h.ofBody_put put none (fun ch hch => (Option.some.inj hch).symm) (hunquoted (isPlain_spaced f g))

end CutAtPoint

/-- A label that is put into the line is found if no quote is open where it is put, and else none is. The
names and the number are read as before in either case. -/
theorem exists_setLabel_of_none {c : Cursor} {e : Evolution} (he : ofCursor c = e) (h : c.label? = none)
    {clause : OverrideClause} {line : Text} (hclause : e.override = some clause)
    (hquoted : clause.IsQuoted line) {opening : Text} (hcol : c.col = opening.length)
    (hfinite : ∀ x ∈ [dx, dy], x.isFinite = true) :
    ∃ rest label', Replacement.applyAll (e.setLabel precision dx dy) (opening ++ c.rest)
        = opening ++ rest ∧ rest.head? = c.rest.head? ∧
      ofCursor ⟨c.col, rest⟩ = { e with label := label' } ∧
      (¬(c.clip e.insertPoint).LeavesOpen → ShowsLabel precision dx dy { e with label := label' }) ∧
      ((c.clip e.insertPoint).LeavesOpen → label' = none) := by
  have hlabel : e.label = none := by rw [← he, label_ofCursor, h]
  rw [QuotedLayout.ofCursor_of_none h] at he
  subst he
  obtain ⟨front, behind, hrest, hcut⟩ := exists_cutAtPoint hclause hquoted
  obtain ⟨col, s⟩ := c
  obtain rfl : s = front ++ behind := hrest
  generalize ofBody ⟨col, front ++ behind⟩ none = e at *
  dsimp only at hcol hcut ⊢
  obtain ⟨f, g, hfresh, hagree⟩ := @Clause.exists_fresh_label precision [dx, dy] rfl hfinite
  obtain ⟨hfound, hhidden⟩ := hcut.ofCursor_put h f g
  have happly : Replacement.applyAll (e.setLabel precision dx dy) (opening ++ (front ++ behind))
      = opening ++ (front ++ ' ' :: (Field.labelled [' '] [f, g] ++ behind)) := by
    rw [setLabel, hlabel, hcut.insertPoint, ← List.cons_append, ← hfresh, ← List.append_assoc,
      ← List.append_assoc]
    exact Replacement.applyAll_insertion (by rw [List.length_append, hcol])
  have hhead : (front ++ ' ' :: (Field.labelled [' '] [f, g] ++ behind)).head?
      = (front ++ behind).head? := by
    rw [List.head?_append_of_ne_nil _ hcut.front_ne_nil, List.head?_append_of_ne_nil _ hcut.front_ne_nil]
  rw [hcut.clip_insertPoint]
  by_cases hopen : Cursor.LeavesOpen ⟨col, front⟩
  · exact ⟨_, none, happly, hhead, hhidden hopen, fun hnot => absurd hopen hnot, fun _ => rfl⟩
  · exact ⟨_, some _, happly, hhead, hfound hopen, fun _ => showsLabel_of_agree rfl hagree,
      fun hleaves => absurd hleaves hopen⟩

/-- Writing the label of a line whose second name is quoted changes nothing but the label that is read, which
shows the offset unless it is hidden. -/
theorem exists_setLabel {line : Text} {e : Evolution} {c : Cursor} (he : ofLine? line = some e)
    (hopen : Kind.open? .evolve line = some c) {clause : OverrideClause}
    (hclause : e.override = some clause) (hquoted : clause.IsQuoted line)
    (hfinite : ∀ x ∈ [dx, dy], x.isFinite = true) :
    ∃ label', ofLine? (Replacement.applyAll (e.setLabel precision dx dy) line)
        = some { e with label := label' } ∧
      (¬e.HidesLabel c.skipSpaces → ShowsLabel precision dx dy { e with label := label' }) ∧
      (e.HidesLabel c.skipSpaces → label' = none) := by
  obtain ⟨lead, gap, hopens, -⟩ := Kind.exists_opens hopen
  obtain ⟨hline, hcol⟩ := Cursor.passes_ofLine_iff.mp hopens.passes
  have hread : ofCursor c.skipSpaces = e := Option.some.inj ((hopens.map_open? ofCursor).symm.trans he)
  have hreopens {rest : Text} (hhead : rest.head? = c.skipSpaces.rest.head?) :
      ofLine? (lead ++ (Kind.keyword .evolve ++ gap) ++ rest) = some (ofCursor ⟨c.skipSpaces.col, rest⟩) :=
    (hopens.of_rest (hhead ▸ hopens.head) (hhead ▸ hopens.boundary)).map_open? ofCursor
  have hlabel : e.label = c.skipSpaces.label? := by rw [← hread, label_ofCursor]
  cases hfound : c.skipSpaces.label? with
  | some label =>
      obtain ⟨rest, label', happly, hhead, hread', hshows⟩ :=
        @exists_setLabel_of_some precision _ _ _ _ _ hread hfound _ hcol hfinite
      refine ⟨some label', ?_, fun _ => hshows, fun hhides => ?_⟩
      · rw [hline, happly, hreopens hhead, hread']
      · simp [HidesLabel, hlabel, hfound] at hhides
  | none =>
      obtain ⟨rest, label', happly, hhead, hread', hshows, hnone⟩ :=
        @exists_setLabel_of_none precision _ _ _ _ hread hfound _ _ hclause hquoted _ hcol hfinite
      refine ⟨label', ?_, fun hhides => hshows fun hleaves => hhides ⟨hlabel.trans hfound, hleaves⟩,
        fun hhides => hnone hhides.2⟩
      rw [hline, happly, hreopens hhead, hread']

theorem ShowsLabel.setLabel_eq_nil {e : Evolution} (h : ShowsLabel precision dx dy e) :
    e.setLabel precision dx dy = [] := by
  obtain ⟨label, hlabel, hdx, hdy⟩ := h
  have hagree : Field.Agree precision [label.dx, label.dy] [dx, dy] := .cons hdx (.cons hdy .nil)
  rw [setLabel, hlabel]
  exact Field.writeNumbers_of_agree hagree

/-- Where no label is read, one more is put into the line. -/
theorem applyAll_setLabel_ne_self {e : Evolution} (h : e.label = none) (line : Text) :
    Replacement.applyAll (e.setLabel precision dx dy) line ≠ line := by
  intro hsame
  have hlength := congrArg List.length hsame
  rw [setLabel, h, writeLabel, Replacement.applyAll_insertion_eq] at hlength
  simp only [List.length_append, List.length_take, List.length_drop, List.length_cons] at hlength
  omega

end Evolution

namespace Document

variable {doc : Document} {config : Config} {n : Nat} {line : Text} {e : Evolution}

/-- Writing the label of an `evolve` line whose second name is quoted keeps the names and the number. The
label is then there to be read, and is left alone by the same edit, exactly if no quote hid it. -/
theorem edit_label_again (hline : doc.line? n = some line) (he : Evolution.ofLine? line = some e)
    {clause : OverrideClause} (hclause : e.override = some clause) (hquoted : clause.IsQuoted line)
    {offset : Vec} (hdx : offset.dx.isFinite = true) (hdy : offset.dy.isFinite = true) (expected : Text) :
    ∃ c doc' line' e', Kind.open? .evolve line = some c ∧
      doc.edit config n (.setLabel .evolve expected offset) = .ok doc' ∧ doc.Writes n line' doc' ∧
      Evolution.ofLine? line' = some e' ∧ e'.name = e.name ∧ e'.override = e.override ∧
      e'.maturity = e.maturity ∧
      (e'.ShowsLabel config.precision offset.dx offset.dy ↔ ¬e.HidesLabel c.skipSpaces) ∧
      ∀ expected', doc'.edit config n (.setLabel .evolve expected' offset) = .ok doc' ↔
        ¬e.HidesLabel c.skipSpaces := by
  obtain ⟨c, hopen, -⟩ := Option.map_eq_some_iff.mp he
  have hfinite : ∀ x ∈ [offset.dx, offset.dy], x.isFinite = true := by simp [hdx, hdy]
  obtain ⟨label', he', hshows, hnone⟩ := @Evolution.exists_setLabel config.precision _ _ _ _ _ he hopen _
    hclause hquoted hfinite
  obtain ⟨doc', hedit, hwrites⟩ : ∃ doc', doc.edit config n (.setLabel .evolve expected offset) = .ok doc' ∧
      doc.Writes n _ doc' := exists_edit rfl hline (statement_evolution he) rfl
  refine ⟨c, doc', _, _, hopen, hedit, hwrites, he', rfl, rfl, rfl, ⟨?_, hshows⟩,
    fun expected' => ⟨?_, fun hhides => ?_⟩⟩
  · rintro ⟨label, hlabel, -⟩ hhides
    rw [hnone hhides] at hlabel
    exact absurd hlabel (by simp)
  · intro hagain hhides
    have hlabel : Evolution.label { e with label := label' } = none := hnone hhides
    have hsame := (edit_eq_ok_self_iff (e := .setLabel .evolve expected' offset) rfl hwrites.line
      (statement_evolution he') rfl).mp hagain
    exact Evolution.applyAll_setLabel_ne_self hlabel _ hsame
  · exact edit_eq_self (e := .setLabel .evolve expected' offset) rfl hwrites.line (statement_evolution he')
      (congrArg some (hshows hhides).setLabel_eq_nil) rfl

/-- A blank inside the quotes does no harm, even though the name is glued to the arrow. -/
theorem edit_label_again_words :
    let line : Text := "evolve A->\"B C\" 0.5".toList
    let doc : Document := ⟨[line]⟩
    ∃ e clause doc' line' e', Evolution.ofLine? line = some e ∧ e.override = some clause ∧
      clause.IsQuoted line ∧ doc.edit {} 1 (.setLabel .evolve ['A'] ⟨-1.5, 2⟩) = .ok doc' ∧
      doc.Writes 1 line' doc' ∧ Evolution.ofLine? line' = some e' ∧
      e'.ShowsLabel (Config.precision {}) (-1.5) 2 ∧ e'.override = some clause ∧
      doc'.edit {} 1 (.setLabel .evolve ['A'] ⟨-1.5, 2⟩) = .ok doc' := by
  intro line doc
  obtain ⟨e, he⟩ : ∃ e, Evolution.ofLine? line = some e :=
    Option.isSome_iff_exists.mp (by decide +kernel)
  have hparts : (Evolution.ofLine? line).map (fun e => (e.insertPoint,
      e.override.map fun clause => (clause.name.span, clause.name.value)))
        = some (19, some (⟨10, 15⟩, "B C".toList)) := by
    decide +kernel
  rw [he, Option.map_some, Option.some.injEq, Prod.mk.injEq] at hparts
  obtain ⟨hpoint, hclause⟩ := hparts
  obtain ⟨clause, hclause, hname⟩ := Option.map_eq_some_iff.mp hclause
  obtain ⟨hspan, hvalue⟩ := Prod.mk.inj hname
  have hquoted : clause.IsQuoted line := by
    rw [OverrideClause.IsQuoted, hspan, hvalue]
    exact ⟨show Name.quotedLength? _ = _ by decide +kernel, by decide +kernel⟩
  obtain ⟨c, doc', line', e', hopen, hedit, hwrites, he', -, hoverride, -, hshows, hagain⟩ :=
    @edit_label_again doc {} 1 line e rfl he clause hclause hquoted ⟨-1.5, 2⟩ (by decide +kernel)
      (by decide +kernel) ['A']
  obtain rfl : (⟨6, " A->\"B C\" 0.5".toList⟩ : Cursor) = c := Option.some.inj hopen
  have hseen : ¬e.HidesLabel (Cursor.skipSpaces ⟨6, " A->\"B C\" 0.5".toList⟩) := by
    rintro ⟨-, hleaves⟩
    rw [hpoint] at hleaves
    revert hleaves
    unfold Cursor.LeavesOpen
    decide +kernel
  exact ⟨e, clause, doc', line', e', he, hclause, hquoted, hedit, hwrites, he', hshows.mpr hseen,
    hoverride.trans hclause, (hagain ['A']).mpr hseen⟩

/-- A blank at the end of the name leaves its closing quote a token of its own, which hides the label. -/
theorem edit_label_again_blank :
    let line : Text := "evolve A->\"B \" 0.5".toList
    let line' : Text := "evolve A->\"B \" 0.5 label [1.00, 2.00]".toList
    let line'' : Text := "evolve A->\"B \" 0.5 label [1.00, 2.00] label [1.00, 2.00]".toList
    (Evolution.ofLine? line).map (fun e => e.override.map (·.name.value)) = some (some "B ".toList) ∧
      (⟨[line]⟩ : Document).edit {} 1 (.setLabel .evolve ['A'] ⟨1, 2⟩) = .ok ⟨[line']⟩ ∧
      (Evolution.ofLine? line').map (·.label.isSome) = some false ∧
      (⟨[line']⟩ : Document).edit {} 1 (.setLabel .evolve ['A'] ⟨1, 2⟩) = .ok ⟨[line'']⟩ := by
  decide +kernel

end Document

end WardleyMap
