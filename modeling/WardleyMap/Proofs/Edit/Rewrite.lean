import WardleyMap.Proofs.Edit.Label

/-!
# Edits that write numbers

Moving a placement, setting the range of a pipeline, resizing a region and shifting the label of a
placement all write one clause. Whatever the line looked like, if the edit succeeds then the clause is
there afterwards and shows the numbers, the rest of the statement is what it was, and the same edit has
nothing left to do. So the edits that leave a document as it is are those whose clause shows the values
already.
-/

namespace WardleyMap

variable {precision : Nat} {values : List Float} {kind : Kind} {line : Text}

/-! ### Regions -/

namespace Region

variable {lead gap : Text}

/-- Corners that can be read are written in place, number by number. -/
theorem exists_rewritten (hlead : ∀ ch ∈ lead, isSpace ch = true) (hgap : ∀ ch ∈ gap, isSpace ch = true)
    {fs : List Field} (hfs : fs.length = 4) (tail : Text) (hlength : values.length = 4)
    (hfinite : ∀ x ∈ values, x.isFinite = true) :
    let opening := lead ++ (kind.keyword ++ gap)
    let r : Region := ⟨kind, (lead ++ kind.keyword).length, some (Field.bracket opening.length fs)⟩
    let line := opening ++ (Field.bracketed fs ++ tail)
    ∃ line' r', Replacement.applyAll ((Statement.region r).write .coordinates precision values) line
        = line' ∧ ofLine? kind line' = some r' ∧
      Rewrites .coordinates precision values line (.region r) line' (.region r') := by
  intro opening r line
  have hsplit : ∀ fs : List Field, opening ++ (Field.bracketed fs ++ tail)
      = (opening ++ ['[']) ++ (Field.join fs ++ (']' :: tail)) := by
    intro fs
    simp only [Field.bracketed, List.append_assoc, List.cons_append, List.nil_append]
  have hstart : opening.length + 1 = (opening ++ ['[']).length := by
    simp only [List.length_append, List.length_singleton]
  obtain ⟨fs', hfs', hagree, happly, hkept⟩ := @Field.exists_writeNumbers precision _ _
    (hfs.trans hlength.symm) hfinite _ _ hstart (']' :: tail)
  rw [← hsplit, ← hsplit] at happly hkept
  refine ⟨_, _, happly, ofLine?_bracketed kind hlead hgap (hfs'.trans hfs) tail, ⟨_, rfl, hagree _⟩, rfl, rfl,
    fun numbers hnumbers => ?_, fun hnone => absurd hnone (Option.some_ne_none _)⟩
  obtain rfl := Option.some.inj hnumbers
  exact hkept

/-- Corners that cannot be read stay on the line, behind those that are put in front of them. -/
theorem exists_inserted (hlead : ∀ ch ∈ lead, isSpace ch = true) (tail : Text) (hlength : values.length = 4)
    (hfinite : ∀ x ∈ values, x.isFinite = true) :
    let r : Region := ⟨kind, (lead ++ kind.keyword).length, none⟩
    let line := lead ++ kind.keyword ++ tail
    ∃ line' r', Replacement.applyAll ((Statement.region r).write .coordinates precision values) line
        = line' ∧ ofLine? kind line' = some r' ∧
      Rewrites .coordinates precision values line (.region r) line' (.region r') := by
  intro r line
  obtain ⟨fs, hfs, htext, hagree⟩ := @Field.exists_bracketText precision values
    (by rintro rfl; simp at hlength) hfinite
  have happly : Replacement.applyAll [.insertion (lead ++ kind.keyword).length
      (Clause.fresh .coordinates precision values)] line
      = lead ++ (kind.keyword ++ [' ']) ++ (Field.bracketed fs ++ tail) := by
    rw [Replacement.applyAll_insertion rfl, Clause.fresh, htext]
    simp only [List.append_assoc, List.cons_append, List.nil_append]
  refine ⟨_, _, happly, ofLine?_bracketed kind hlead isSpace_of_mem_space (hfs.trans hlength) tail,
    ⟨_, rfl, hagree _⟩, rfl, rfl, fun numbers hnumbers => absurd hnumbers (Option.some_ne_none numbers).symm,
    fun _ => ?_⟩
  rw [← happly, Replacement.applyAll_insertion_eq]
  rfl

/-- The coordinates of a region are written over, or put behind the keyword where there are none. -/
theorem rewrites_coordinates {r : Region} (hr : ofLine? kind line = some r)
    (hlength : values.length = 4) (hfinite : ∀ x ∈ values, x.isFinite = true) :
    ∃ line' r', Replacement.applyAll ((Statement.region r).write .coordinates precision values) line
        = line' ∧ ofLine? kind line' = some r' ∧
      Rewrites .coordinates precision values line (.region r) line' (.region r') := by
  obtain ⟨c, hopen, -⟩ := Option.map_eq_some_iff.mp hr
  obtain ⟨lead, gap, hopens, -⟩ := Kind.exists_opens hopen
  generalize c.skipSpaces = place at hopens
  obtain ⟨rfl, hcol⟩ := Cursor.passes_ofLine_iff.mp hopens.passes
  obtain rfl := Option.some.inj ((ofLine?_of_opens hopens).symm.trans hr)
  cases hread : place.bracket? 4 with
  | some found =>
      obtain ⟨bracket, after⟩ := found
      obtain ⟨fs, hfs, hpass, rfl⟩ := Cursor.bracket?_eq_some_iff.mp hread
      rw [hpass.rest, hcol]
      exact exists_rewritten hopens.isSpace_lead hopens.isSpace_gap hfs after.rest hlength hfinite
  | none =>
      have hinserted := @exists_inserted precision values kind lead hopens.isSpace_lead (gap ++ place.rest)
        hlength hfinite
      rw [← List.append_assoc, List.append_assoc lead] at hinserted
      exact hinserted

end Region

/-! ### Plans -/

theorem Kind.isPlacement_of_isMovable (h : kind.isMovable = true) : kind.isPlacement = true := by
  cases kind with
  | component | note | anchor => rfl
  | pipeline | evolve | pioneers | settlers | townPlanners | annotation => simp [isMovable] at h

theorem Placement.setCoordinates_eq_write (p : Placement) (precision : Nat) (first second : Float) :
    p.setCoordinates precision first second
      = (Statement.placement p).write .coordinates precision [first, second] := by
  unfold setCoordinates writeBracket Statement.write
  cases hcoordinates : p.coordinates with
  | some bracket => simp only [Statement.numbers?, hcoordinates, Option.map_some]
  | none =>
      simp only [Statement.numbers?, hcoordinates, Option.map_none, Statement.insertPoint, insertPoint]
      rfl

theorem Placement.setLabel?_eq_write (p : Placement) (precision : Nat) (dx dy : Float) :
    p.setLabel? precision dx dy = if p.coordinates.isSome then
      some ((Statement.placement p).write .label precision [dx, dy]) else none := by
  unfold setLabel? writeLabel Statement.write
  congr 2
  cases hlabel : p.label with
  | some label => simp only [Statement.numbers?, hlabel, Option.map_some]
  | none =>
      simp only [Statement.numbers?, hlabel, Option.map_none, Statement.insertPoint]
      rfl

theorem Evolution.setLabel_eq_write (e : Evolution) (precision : Nat) (dx dy : Float) :
    e.setLabel precision dx dy = (Statement.evolution e).write .label precision [dx, dy] := by
  unfold setLabel writeLabel Statement.write
  cases hlabel : e.label with
  | some label => simp only [Statement.numbers?, hlabel, Option.map_some]
  | none =>
      simp only [Statement.numbers?, hlabel, Option.map_none, Statement.insertPoint]
      rfl

theorem Region.setEdges_eq_write (r : Region) (precision : Nat) (top left bottom right : Float) :
    r.setEdges precision top left bottom right
      = (Statement.region r).write .coordinates precision [top, left, bottom, right] := by
  unfold setEdges writeBracket Statement.write
  cases hcoordinates : r.coordinates with
  | some bracket => simp only [Statement.numbers?, hcoordinates, Option.map_some]
  | none =>
      simp only [Statement.numbers?, hcoordinates, Option.map_none, Statement.insertPoint]
      rfl

namespace Edit

variable {e : Edit} {clause : Clause}

/-- Only a label cannot always be written: a placement without coordinates has no place for it. -/
theorem request_cases (hsupported : e.unsupported? = none)
    (hrequest : e.request? = some (clause, values)) :
    (e.kind.isPlacement = true ∧ values.length = 2 ∧
      ∀ (precision : Nat) (line : Text) (p : Placement), e.plan? precision line (.placement p) =
        if clause = .coordinates ∨ p.coordinates.isSome = true then
          some ((Statement.placement p).write clause precision values) else none) ∨
    (e.kind.isRegion = true ∧ values.length = 4 ∧ clause = .coordinates ∧
      ∀ (precision : Nat) (line : Text) (r : Region), e.plan? precision line (.region r)
        = some ((Statement.region r).write clause precision values)) := by
  cases e with
  | move kind name position =>
      obtain ⟨rfl, rfl⟩ := Prod.mk.inj (Option.some.inj hrequest)
      have hkind : kind.isMovable = true := by simpa [unsupported?] using hsupported
      refine Or.inl ⟨Kind.isPlacement_of_isMovable hkind, rfl, fun precision line p => ?_⟩
      · rw [if_pos (Or.inl rfl), ← Placement.setCoordinates_eq_write]
        rfl
  | setRange name start stop =>
      obtain ⟨rfl, rfl⟩ := Prod.mk.inj (Option.some.inj hrequest)
      refine Or.inl ⟨rfl, ?_, fun precision line p => ?_⟩
      · split <;> rfl
      · rw [if_pos (Or.inl rfl)]
        change some (if start ≤ stop then p.setCoordinates precision start stop
          else p.setCoordinates precision stop start) = _
        split
        · rw [← Placement.setCoordinates_eq_write]
        · rw [← Placement.setCoordinates_eq_write]
  | setLabel kind name offset =>
      cases hkind : kind.isPlacement with
      | false => simp [request?, hkind] at hrequest
      | true =>
          rw [request?, if_pos hkind] at hrequest
          obtain ⟨rfl, rfl⟩ := Prod.mk.inj (Option.some.inj hrequest)
          refine Or.inl ⟨hkind, rfl, fun precision line p => ?_⟩
          simp only [reduceCtorEq, false_or]
          exact p.setLabel?_eq_write precision _ _
  | resize kind first second =>
      obtain ⟨rfl, rfl⟩ := Prod.mk.inj (Option.some.inj hrequest)
      have hkind : kind.isRegion = true := by simpa [unsupported?] using hsupported
      refine Or.inr ⟨hkind, rfl, rfl, fun precision line r => ?_⟩
      · rw [← Region.setEdges_eq_write]
        rfl
  | rename kind name newName => simp [request?] at hrequest
  | setOverride name newName => simp [request?] at hrequest
  | moveEvolution name maturity => simp [request?] at hrequest
  | setText text => simp [request?] at hrequest

/-- The edits of numbers differ only in the clause that they write and in the values for it. -/
theorem plan?_eq_write {statement : Statement} {rs : List Replacement}
    (hsupported : e.unsupported? = none) (hrequest : e.request? = some (clause, values))
    (hstatement : Statement.ofLine? e.kind line = some statement)
    (hplan : e.plan? precision line statement = some rs) :
    rs = statement.write clause precision values := by
  rcases request_cases hsupported hrequest with ⟨hkind, -, hplans⟩ | ⟨hkind, -, -, hplans⟩
  · rw [Statement.ofLine?_placement hkind] at hstatement
    obtain ⟨p, -, rfl⟩ := Option.map_eq_some_iff.mp hstatement
    rw [hplans, Option.ite_none_right_eq_some] at hplan
    exact (Option.some.inj hplan.2).symm
  · rw [Statement.ofLine?_region hkind] at hstatement
    obtain ⟨r, -, rfl⟩ := Option.map_eq_some_iff.mp hstatement
    exact (Option.some.inj ((hplans precision line r).symm.trans hplan)).symm

/-- An edit that plans something rewrites its clause, and then plans nothing more. -/
theorem exists_rewrites {statement : Statement} {rs : List Replacement}
    (hsupported : e.unsupported? = none) (hrequest : e.request? = some (clause, values))
    (hfinite : ∀ x ∈ values, x.isFinite = true)
    (hstatement : Statement.ofLine? e.kind line = some statement)
    (hplan : e.plan? precision line statement = some rs) :
    ∃ line' statement', Replacement.applyAll rs line = line' ∧
      Statement.ofLine? e.kind line' = some statement' ∧
      Rewrites clause precision values line statement line' statement' ∧
      e.plan? precision line' statement' = some [] := by
  have hsettled : ∀ {line' : Text} {statement' : Statement},
      Rewrites clause precision values line statement line' statement' →
      statement'.write clause precision values = [] := by
    intro line' statement' h
    obtain ⟨numbers, hnumbers, hagree⟩ := h.shows
    rw [Statement.write, hnumbers]
    exact Field.writeNumbers_of_agree hagree
  rcases request_cases hsupported hrequest with
    ⟨hkind, hlength, hplans⟩ | ⟨hkind, hlength, rfl, hplans⟩
  · rw [Statement.ofLine?_placement hkind] at hstatement
    obtain ⟨p, hp, rfl⟩ := Option.map_eq_some_iff.mp hstatement
    rw [hplans] at hplan
    split at hplan
    · next hroom =>
        obtain rfl := Option.some.inj hplan
        have hrewrites : ∃ line' p',
            Replacement.applyAll ((Statement.placement p).write clause precision values) line = line' ∧
            Placement.ofLine? e.kind line' = some p' ∧
            Rewrites clause precision values line (.placement p) line' (.placement p') := by
          cases clause with
          | coordinates => exact Placement.rewrites_coordinates hp hlength hfinite
          | label => exact Placement.rewrites_label hp (by simpa using hroom) hlength hfinite
        obtain ⟨line', p', happly, hp', h⟩ := hrewrites
        refine ⟨line', .placement p', happly, ?_, h, ?_⟩
        · rw [Statement.ofLine?_placement hkind, hp', Option.map_some]
        · rw [hplans, hsettled h, if_pos]
          cases clause with
          | coordinates => exact Or.inl rfl
          | label =>
              have hcoordinates := congrArg Option.isSome h.other
              simp only [Clause.other, Statement.numbers?, Option.isSome_map] at hcoordinates
              exact Or.inr (hcoordinates.trans (by simpa using hroom))
    · simp at hplan
  · rw [Statement.ofLine?_region hkind] at hstatement
    obtain ⟨r, hr, rfl⟩ := Option.map_eq_some_iff.mp hstatement
    obtain rfl := Option.some.inj ((hplans precision line r).symm.trans hplan)
    obtain ⟨line', r', happly, hr', h⟩ := Region.rewrites_coordinates hr hlength hfinite
    refine ⟨line', .region r', happly, ?_, h, ?_⟩
    · rw [Statement.ofLine?_region hkind, hr', Option.map_some]
    · rw [hplans, hsettled h]

end Edit

namespace Document

variable {doc doc' : Document} {config : Config} {n : Nat} {e : Edit} {clause : Clause}

/-- An edit that writes the numbers of a clause leaves a line that shows them and is otherwise read as
before, and made once more it changes nothing. -/
theorem edit_rewrites (hrequest : e.request? = some (clause, values))
    (hfinite : ∀ x ∈ values, x.isFinite = true) (h : doc.edit config n e = .ok doc') :
    ∃ line line' statement statement', doc.line? n = some line ∧ doc.Writes n line' doc' ∧
      Statement.ofLine? e.kind line = some statement ∧
      Statement.ofLine? e.kind line' = some statement' ∧
      Rewrites clause config.precision values line statement line' statement' ∧
      doc'.edit config n e = .ok doc' := by
  obtain ⟨hsupported, line, statement, rs, hline, hstatement, hplan, hdoc⟩ := edit_eq_ok_iff.mp h
  obtain ⟨line', statement', happly, hstatement', hrewrites, hsettled⟩ :=
    Edit.exists_rewrites hsupported hrequest hfinite hstatement hplan
  have hwrites := writes_of_withLine? hline hdoc (Edit.fits_of_plan? hstatement hplan)
  rw [happly] at hwrites
  exact ⟨line, line', statement, statement', hline, hwrites, hstatement, hstatement', hrewrites,
    edit_eq_self hsupported hwrites.line hstatement' hsettled rfl⟩

/-- Half a bracket behind the name does not keep the new coordinates from being read. -/
theorem edit_rewrites_half_bracket :
    let doc : Document := ⟨["component A [0.5 label [1, 2]".toList]⟩
    let doc' : Document := ⟨["component A [0.25, 0.50] [0.5 label [1, 2]".toList]⟩
    let e : Edit := .move .component ['A'] ⟨0.5, 0.25⟩
    doc.edit {} 1 e = .ok doc' ∧ ∃ line line' statement statement', doc.line? 1 = some line ∧
      doc.Writes 1 line' doc' ∧ Statement.ofLine? e.kind line = some statement ∧
      Statement.ofLine? e.kind line' = some statement' ∧
      Rewrites .coordinates 2 [0.25, 0.5] line statement line' statement' ∧
      doc'.edit {} 1 e = .ok doc' := by
  intro doc doc' e
  have hedit : doc.edit {} 1 e = .ok doc' := by decide +kernel
  have hfinite : ∀ x ∈ [(0.25 : Float), 0.5], x.isFinite = true := by decide +kernel
  exact ⟨hedit, edit_rewrites rfl hfinite hedit⟩

/-- Only an edit whose clause is on the line and shows the values leaves the document as it is. -/
theorem edit_eq_self_iff {line : Text} {statement : Statement} {rs : List Replacement}
    (hrequest : e.request? = some (clause, values)) (hfinite : ∀ x ∈ values, x.isFinite = true)
    (hsupported : e.unsupported? = none) (hline : doc.line? n = some line)
    (hstatement : Statement.ofLine? e.kind line = some statement)
    (hplan : e.plan? config.precision line statement = some rs) :
    doc.edit config n e = .ok doc ↔ ∃ numbers, statement.numbers? clause = some numbers ∧
      Field.Agree config.precision numbers values := by
  constructor
  · intro h
    obtain ⟨-, line₁, statement₁, rs₁, hline₁, hstatement₁, hplan₁, hdoc⟩ := edit_eq_ok_iff.mp h
    obtain rfl := Option.some.inj (hline.symm.trans hline₁)
    obtain rfl := Option.some.inj (hstatement.symm.trans hstatement₁)
    obtain ⟨line', statement', happly, hstatement', hrewrites, -⟩ :=
      Edit.exists_rewrites hsupported hrequest hfinite hstatement hplan₁
    have hwrites := writes_of_withLine? hline hdoc (Edit.fits_of_plan? hstatement hplan₁)
    rw [happly] at hwrites
    -- the line is the same before and after, and so is what is read on it
    obtain rfl := Option.some.inj (hline.symm.trans hwrites.line)
    obtain rfl := Option.some.inj (hstatement.symm.trans hstatement')
    exact hrewrites.shows
  · rintro ⟨numbers, hnumbers, hagree⟩
    obtain rfl := Edit.plan?_eq_write hsupported hrequest hstatement hplan
    refine edit_eq_self hsupported hline hstatement hplan ?_
    rw [Statement.write, hnumbers]
    dsimp only
    rw [Field.writeNumbers_of_agree hagree, Replacement.applyAll_nil]

end Document

end WardleyMap
