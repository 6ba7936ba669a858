import WardleyMap.Proofs.Statement.Spans

/-!
# Every line is reported soundly

Whatever a line holds, the statement that it is read as reports spans that lie in the line, in the order in which
the parts are written. `Statement.IsAt` says so for the spans up to the insert point, for those behind it and
for the numbers inside a clause, and that names and numbers are what their spans show. It holds of every
statement that is read from a line (`Statement.exists_isAt_of_ofLine?`).
-/

namespace WardleyMap

namespace Statement

/-- The spans of the parts up to the insert point, in the order in which they are written. -/
def clauses : Statement → List Span
  | placement p => p.name.span :: p.coordinates.toList.map Bracket.span
  | evolution e => e.name.span :: (e.override.toList.flatMap (fun o => [o.arrow, o.name.span]) ++
      e.maturity.toList.map Number.span)
  | region r => r.coordinates.toList.map Bracket.span
  | annotation a => a.number.span :: a.coordinates.toList

/-- The spans of the parts behind the insert point. -/
def behind : Statement → List Span
  | placement p => p.label.toList.map LabelClause.span
  | evolution e => e.label.toList.map LabelClause.span
  | region _ => []
  | annotation a => a.text.toList

/-- The spans that hold numbers, each with its numbers. -/
def groups : Statement → List (Span × List Number)
  | placement p => p.coordinates.toList.map (fun b => (b.span, b.values)) ++
      p.label.toList.map fun l => (l.span, [l.dx, l.dy])
  | evolution e => e.maturity.toList.map (fun n => (n.span, [n])) ++
      e.label.toList.map fun l => (l.span, [l.dx, l.dy])
  | region r => r.coordinates.toList.map fun b => (b.span, b.values)
  | annotation a => [(a.number.span, [a.number])]

/-- The names, each with the column from which on it is looked for: behind the keyword, which ends at column
`col`, or behind the arrow. -/
def names (col : Nat) : Statement → List (Nat × NameToken)
  | placement p => [(col, p.name)]
  | evolution e => (col, e.name) :: e.override.toList.map fun o => (o.arrow.stop, o.name)
  | region _ => []
  | annotation _ => []

theorem forall_groups_placement {p : Placement} {P : Span × List Number → Prop} :
    (∀ g ∈ (placement p).groups, P g) ↔ (∀ bracket ∈ p.coordinates, P (bracket.span, bracket.values)) ∧
      ∀ label ∈ p.label, P (label.span, [label.dx, label.dy]) := by
  simp [groups, or_imp, forall_and]

theorem forall_groups_evolution {e : Evolution} {P : Span × List Number → Prop} :
    (∀ g ∈ (evolution e).groups, P g) ↔ (∀ number ∈ e.maturity, P (number.span, [number])) ∧
      ∀ label ∈ e.label, P (label.span, [label.dx, label.dy]) := by
  simp [groups, or_imp, forall_and]

/-- Every span that the statement reports. -/
def spans (s : Statement) : List Span :=
  s.clauses ++ s.behind ++ s.groups.flatMap fun g => g.2.map Number.span

/-- The statement stands on the line behind the keyword, which ends at column `col`. -/
structure IsAt (line : Text) (col : Nat) (s : Statement) : Prop where
  clauses : Span.InOrder col s.clauses s.insertPoint
  behind : Span.InOrder s.insertPoint s.behind line.length
  groups : ∀ g ∈ s.groups, Span.InOrder g.1.start (g.2.map Number.span) g.1.stop
  numbers : ∀ g ∈ s.groups, ∀ number ∈ g.2, number.IsAt line
  names : ∀ name ∈ s.names col, name.2.IsAt line name.1

/-- The statement is read from the cursor on, which stands behind the keyword. -/
structure IsFrom (c : Cursor) (s : Statement) : Prop where
  clauses : Span.InOrder c.col s.clauses s.insertPoint
  behind : Span.InOrder s.insertPoint s.behind c.lineEnd
  groups : ∀ g ∈ s.groups, Span.InOrder g.1.start (g.2.map Number.span) g.1.stop
  numbers : ∀ g ∈ s.groups, ∀ number ∈ g.2, c.Shows number
  names : ∀ name ∈ s.names c.col, c.Names name.1 name.2

theorem IsFrom.isAt {line lead : Text} {c : Cursor} {s : Statement} (h : IsFrom c s)
    (hpass : (Cursor.ofLine line).Passes lead c) : IsAt line c.col s := by
  refine ⟨h.clauses, ?_, h.groups, fun g hg number hnumber => ?_, fun name hname => ?_⟩
  · rw [← Cursor.lineEnd_ofLine, ← hpass.lineEnd]
    exact h.behind
  · exact ((h.numbers g hg number hnumber).of_passes hpass).isAt
  · exact ((h.names name hname).of_passes hpass).isAt

end Statement

/-! ### Placements -/

namespace Placement

theorem names_nameAt (c : Cursor) : c.Names c.col (nameAt c.skipSpaces) := by
  unfold nameAt
  split
  · next hquoted => exact Cursor.names_of_quotedName? hquoted
  · next hquoted => exact Cursor.names_bareName hquoted _

/-- The coordinates follow the name, and the label is looked for behind them. -/
theorem exists_behind (kind : Kind) (c : Cursor) : ∃ passed rest, c.Passes passed rest ∧
    (ofCursor kind c).insertPoint = rest.col ∧ (ofCursor kind c).label = rest.label? ∧
    Span.InOrder (ofCursor kind c).name.span.stop
      ((ofCursor kind c).coordinates.toList.map Bracket.span) rest.col ∧
    ∀ bracket ∈ (ofCursor kind c).coordinates,
      Span.InOrder bracket.span.start (bracket.values.map Number.span) bracket.span.stop := by
  obtain ⟨⟨passed, hname⟩, hcol⟩ := (columns_ofCursor kind c).name_stop.passes_seek
  change (c.seek (nameAt c).span.stop).col = (nameAt c).span.stop at hcol
  unfold ofCursor
  dsimp only
  cases hread : (c.seek (nameAt c).span.stop).skipSpaces.bracket? 2 with
  | none => exact ⟨passed, _, hname, hcol.symm, rfl, hcol.ge, by simp⟩
  | some found =>
      obtain ⟨bracket, rest⟩ := found
      have hskip := Cursor.passes_skipSpaces (c.seek (nameAt c).span.stop)
      obtain ⟨fs, -, hpass, -⟩ := Cursor.bracket?_eq_some_iff.mp hread
      obtain ⟨hspan, hnumbers⟩ := Cursor.inOrder_bracket hread
      refine ⟨_, rest, hname.trans (hskip.trans hpass), ?_, rfl, ?_, ?_⟩
      · change bracket.span.stop = rest.col
        rw [hspan]
      · change Span.InOrder (nameAt c).span.stop [bracket.span] rest.col
        rw [hspan]
        exact ⟨hcol.ge.trans hskip.col_le, hpass.col_le, Nat.le_refl _⟩
      · rintro found ⟨⟩
        rw [hspan]
        exact hnumbers

/-- What is read as a placement lies on the line from the cursor on. -/
theorem isFrom_ofCursor (kind : Kind) (c : Cursor) :
    Statement.IsFrom c (.placement (ofCursor kind c.skipSpaces)) := by
  have hcolumns := columns_ofCursor kind c.skipSpaces
  have hskip := Cursor.passes_skipSpaces c
  obtain ⟨passed, rest, hpass, hinsert, hlabel, hcoordinates, hvalues⟩ :=
    exists_behind kind c.skipSpaces
  refine ⟨⟨hskip.col_le.trans hcolumns.name_start, hcolumns.name_le, ?_⟩, ?_, ?_, ?_, ?_⟩
  · rw [Statement.insertPoint, hinsert]
    exact hcoordinates
  · rw [Statement.insertPoint, Statement.behind, hinsert, hlabel, ← (hskip.trans hpass).lineEnd]
    exact rest.inOrder_labels
  · refine Statement.forall_groups_placement.mpr ⟨hvalues, fun label hfound => ?_⟩
    rw [hlabel] at hfound
    exact (Cursor.inOrder_label hfound).2
  · refine Statement.forall_groups_placement.mpr ⟨fun bracket hbracket number hnumber => ?_,
      fun label hfound number hnumber => ?_⟩
    · exact ((hcolumns.coordinates bracket hbracket).2 number hnumber).of_passes hskip
    · exact (hcolumns.label label hfound number hnumber).of_passes hskip
  · intro name hmem
    rw [List.mem_singleton.mp hmem]
    exact names_nameAt c

end Placement

/-! ### Evolved components -/

namespace Evolution

def namesEnd (e : Evolution) : Nat :=
  match e.override with
  | some clause => clause.name.span.stop
  | none => e.name.span.stop

/-- The name, the override and the maturity stand in this order, if each of them starts where the one before may
end. -/
theorem inOrder_clauses {e : Evolution} {col : Nat} (hstart : col ≤ e.name.span.start)
    (hname : e.name.span.start ≤ e.name.span.stop)
    (hoverride : ∀ clause ∈ e.override,
      Span.InOrder e.name.span.stop [clause.arrow, clause.name.span] clause.name.span.stop)
    (hmaturity : ∀ number ∈ e.maturity,
      Span.InOrder e.namesEnd [number.span] number.span.stop) :
    Span.InOrder col (Statement.evolution e).clauses e.insertPoint := by
  obtain ⟨name, override, maturity, label⟩ := e
  have hrest : Span.InOrder name.span.stop (override.toList.flatMap fun o => [o.arrow, o.name.span])
      (namesEnd ⟨name, override, maturity, label⟩) := by
    cases override with
    | none => exact Nat.le_refl _
    | some clause => exact hoverride clause rfl
  have hlast : Span.InOrder (namesEnd ⟨name, override, maturity, label⟩)
      (maturity.toList.map Number.span) (insertPoint ⟨name, override, maturity, label⟩) := by
    cases maturity with
    | some number => exact hmaturity number rfl
    | none => cases override <;> exact Nat.le_refl _
  exact ⟨hstart, hname, hrest.append hlast⟩

theorem Head.le_maturity_bare (c : Cursor) :
    ∀ number ∈ (Head.bare c).maturity, (Head.bare c).name.span.stop ≤ number.span.start := by
  have hstop := (Head.columns_bare c).stop_le
  unfold Head.bare at hstop ⊢
  split
  · next number hnumber =>
      rw [hnumber] at hstop
      obtain ⟨-, hcol⟩ := (Cursor.shows_of_lastNumber? hnumber).reaches_start.passes_seek
      rintro found ⟨⟩
      exact hstop.trans hcol.le
  · simp

theorem Head.le_maturity_ofCursor (c : Cursor) : ∀ number ∈ (Head.ofCursor c).maturity,
    (Head.ofCursor c).name.span.stop ≤ number.span.start := by
  unfold Head.ofCursor
  split
  · simp
  · split
    · simp
    · exact le_maturity_bare c

theorem Head.le_maturity_ofOverride (c : Cursor) : ∀ number ∈ (Head.ofOverride c).maturity,
    (Head.ofOverride c).name.span.stop ≤ number.span.start := by
  unfold Head.ofOverride
  split
  · simp
  · exact le_maturity_bare c

theorem Head.names_bare {c : Cursor} (h : c.skipSpaces.quotedName? = none) :
    c.Names c.col (Head.bare c.skipSpaces).name := by
  unfold Head.bare
  split
  · exact Cursor.names_bareName h _
  · exact Cursor.names_bareName h _

theorem Head.names_ofCursor (c : Cursor) : c.Names c.col (Head.ofCursor c.skipSpaces).name := by
  unfold Head.ofCursor
  split
  · next hquoted => exact Cursor.names_of_quotedName? hquoted
  · next hquoted =>
      split
      · exact Cursor.names_bareName hquoted _
      · exact names_bare hquoted

theorem Head.names_ofOverride (c : Cursor) : c.Names c.col (Head.ofOverride c.skipSpaces).name := by
  unfold Head.ofOverride
  split
  · next hquoted => exact Cursor.names_of_quotedName? hquoted
  · next hquoted => exact names_bare hquoted

theorem inOrder_maturityAt {c : Cursor} {col : Nat} (hcol : col ≤ c.col) :
    ∀ number ∈ maturityAt c, Span.InOrder col [number.span] number.span.stop := by
  intro number hnumber
  have hshows := shows_of_maturityAt hnumber
  exact ⟨hcol.trans hshows.col_le_start, hshows.start_le_stop, Nat.le_refl _⟩

theorem Head.inOrder_maturity {c : Cursor} {head : Head} (h : Head.Columns c head)
    (hle : ∀ number ∈ head.maturity, head.name.span.stop ≤ number.span.start) :
    ∀ number ∈ head.maturity, Span.InOrder head.name.span.stop [number.span] number.span.stop :=
  fun number hnumber => ⟨hle number hnumber, (h.maturity number hnumber).start_le_stop, Nat.le_refl _⟩

/-- The parts of an `evolve` statement follow one another up to the insert point. -/
theorem inOrder_ofBody (c : Cursor) (label : Option LabelClause) : Span.InOrder c.col
    (Statement.evolution (ofBody c label)).clauses (ofBody c label).insertPoint := by
  have hbase := Head.columns_ofCursor c
  have hbaseMaturity := Head.inOrder_maturity hbase (Head.le_maturity_ofCursor c)
  unfold ofBody
  dsimp only
  split
  · next number hmaturity =>
      refine inOrder_clauses hbase.name_start hbase.name_le (by simp) ?_
      rw [← hmaturity]
      exact hbaseMaturity
  · split
    · exact inOrder_clauses hbase.name_start hbase.name_le (by simp) (inOrder_maturityAt hbase.stop_le)
    · next behind harrow =>
        have hskipArrow := Cursor.passes_skipSpaces (Head.ofCursor c).rest
        have hpassArrow := Cursor.acceptText?_eq_some_iff.mp harrow
        have hskip := Cursor.passes_skipSpaces behind
        have hover := Head.columns_ofOverride behind.skipSpaces
        have hoverMaturity := Head.inOrder_maturity hover (Head.le_maturity_ofOverride _)
        refine inOrder_clauses hbase.name_start hbase.name_le ?_ ?_
        · rintro clause ⟨⟩
          exact ⟨hbase.stop_le.trans hskipArrow.col_le, hpassArrow.col_le,
            hskip.col_le.trans hover.name_start, hover.name_le, Nat.le_refl _⟩
        · change ∀ number ∈ (Head.ofOverride behind.skipSpaces).maturity <|>
              maturityAt (Head.ofOverride behind.skipSpaces).rest,
            Span.InOrder (Head.ofOverride behind.skipSpaces).name.span.stop [number.span]
              number.span.stop
          cases hmaturity : (Head.ofOverride behind.skipSpaces).maturity with
          | some number =>
              rintro found ⟨⟩
              exact hoverMaturity number hmaturity
          | none => exact inOrder_maturityAt hover.stop_le

/-- Both names of an `evolve` statement are written where their spans say. -/
theorem names_ofBody (c : Cursor) (label : Option LabelClause) :
    ∀ name ∈ (Statement.evolution (ofBody c.skipSpaces label)).names c.col, c.Names name.1 name.2 := by
  have hname : c.Names c.col (ofBody c.skipSpaces label).name := by
    rw [name_ofBody]
    exact Head.names_ofCursor c
  intro name hmem
  rcases List.mem_cons.mp hmem with rfl | hmem
  · exact hname
  · obtain ⟨clause, hclause, rfl⟩ := List.mem_map.mp hmem
    have hskip := Cursor.passes_skipSpaces c
    obtain ⟨passed, hpass⟩ := (Head.columns_ofCursor c.skipSpaces).rest
    rw [Option.mem_toList] at hclause
    unfold ofBody at hclause
    dsimp only at hclause
    split at hclause
    · simp at hclause
    · split at hclause
      · simp at hclause
      · next behind harrow =>
          obtain rfl := Option.some.inj hclause
          have hpassBehind := hpass.trans ((Cursor.passes_skipSpaces _).trans
            (Cursor.acceptText?_eq_some_iff.mp harrow))
          exact (Head.names_ofOverride behind).of_passes (hskip.trans hpassBehind)

/-- What is read as an evolved component lies on the line from the cursor on. -/
theorem isFrom_ofCursor (c : Cursor) :
    Statement.IsFrom c (.evolution (ofCursor c.skipSpaces)) := by
  have hcolumns := columns_ofCursor c.skipSpaces
  have hskip := Cursor.passes_skipSpaces c
  have hreach := (reaches_insertPoint hcolumns).of_passes hskip
  have hgroups : ∀ g ∈ (Statement.evolution (ofCursor c.skipSpaces)).groups,
      Span.InOrder g.1.start (g.2.map Number.span) g.1.stop := by
    refine Statement.forall_groups_evolution.mpr ⟨fun number hnumber => ?_, fun label hlabel => ?_⟩
    · exact ⟨Nat.le_refl _, (hcolumns.maturity number hnumber).start_le_stop, Nat.le_refl _⟩
    · rw [label_ofCursor] at hlabel
      exact (Cursor.inOrder_label hlabel).2
  have hnumbers : ∀ g ∈ (Statement.evolution (ofCursor c.skipSpaces)).groups,
      ∀ number ∈ g.2, c.Shows number := by
    refine Statement.forall_groups_evolution.mpr ⟨fun number hnumber found hfound => ?_,
      fun label hlabel number hnumber => ?_⟩
    · rw [List.mem_singleton.mp hfound]
      exact (hcolumns.maturity number hnumber).of_passes hskip
    · rw [label_ofCursor] at hlabel
      exact (Cursor.shows_of_label? hlabel number hnumber).of_passes hskip
  cases hlabel : c.skipSpaces.label? with
  | none =>
      have hbody : ofCursor c.skipSpaces = ofBody c.skipSpaces none := by
        rw [ofCursor, hlabel]
      refine ⟨?_, ?_, hgroups, hnumbers, ?_⟩
      · rw [hbody]
        exact (inOrder_ofBody c.skipSpaces none).mono_left hskip.col_le
      · rw [Statement.behind, label_ofCursor, hlabel]
        exact hreach.le_lineEnd
      · rw [hbody]
        exact names_ofBody c none
  | some label =>
      -- the names and the maturity are looked for in the text in front of the label
      obtain ⟨hstart, hspan, hstop⟩ := (Cursor.inOrder_label hlabel).1
      have hbody : ofCursor c.skipSpaces
          = ofBody (c.clip label.span.start).skipSpaces (some label) := by
        rw [ofCursor, hlabel, Cursor.skipSpaces_clip hstart]
      have hclip := Cursor.passes_skipSpaces (c.clip label.span.start)
      have hinsert : (ofCursor c.skipSpaces).insertPoint ≤ label.span.start := by
        rw [hbody]
        exact ((reaches_insertPoint (columns_ofBody _ _)).of_passes hclip).le_lineEnd.trans
          (c.lineEnd_clip_le (hskip.col_le.trans hstart))
      refine ⟨?_, ?_, hgroups, hnumbers, ?_⟩
      · rw [hbody]
        exact (inOrder_ofBody _ _).mono_left hclip.col_le
      · rw [Statement.behind, label_ofCursor, hlabel]
        exact ⟨hinsert, hspan, hskip.lineEnd ▸ hstop⟩
      · rw [hbody]
        exact fun name hmem => (names_ofBody (c.clip label.span.start) _ name hmem).of_clip

end Evolution

/-! ### Regions and annotations -/

/-- What is read as a region lies on the line from the cursor on. -/
theorem Region.isFrom_ofCursor (kind : Kind) (c : Cursor) : Statement.IsFrom c
    (.region ⟨kind, c.col, (c.skipSpaces.bracket? 4).map Prod.fst⟩) := by
  have hskip := Cursor.passes_skipSpaces c
  cases hread : c.skipSpaces.bracket? 4 with
  | none =>
      refine ⟨Nat.le_refl c.col, Nat.le_add_right c.col c.rest.length, ?_, ?_, ?_⟩
      · simp [Statement.groups]
      · simp [Statement.groups]
      · simp [Statement.names]
  | some found =>
      obtain ⟨bracket, rest⟩ := found
      obtain ⟨fs, -, hpass, -⟩ := Cursor.bracket?_eq_some_iff.mp hread
      obtain ⟨hspan, hnumbers⟩ := Cursor.inOrder_bracket hread
      have hgroups : (Statement.region ⟨kind, c.col, some bracket⟩).groups
          = [(bracket.span, bracket.values)] := rfl
      refine ⟨?_, ?_, ?_, ?_, ?_⟩
      · change Span.InOrder c.col [bracket.span] bracket.span.stop
        rw [hspan]
        exact ⟨hskip.col_le, hpass.col_le, Nat.le_refl _⟩
      · change bracket.span.stop ≤ c.lineEnd
        rw [hspan, ← (hskip.trans hpass).lineEnd]
        exact Nat.le_add_right _ _
      · intro g hg
        obtain rfl := List.mem_singleton.mp hg
        dsimp only
        rw [hspan]
        exact hnumbers
      · intro g hg number hnumber
        obtain rfl := List.mem_singleton.mp hg
        exact (Cursor.shows_of_mem_bracket hread hnumber).of_passes hskip
      · simp [Statement.names]

namespace Annotation

theorem inOrder_textAt (c : Cursor) : Span.InOrder c.col (textAt c).toList c.lineEnd := by
  unfold textAt
  split
  · exact Nat.le_add_right _ _
  · refine ⟨Nat.le_add_right _ _, ?_, Nat.le_refl _⟩
    exact Nat.add_le_add_left (List.takeWhile_prefix isBlank).length_le _

/-- What is read as an annotation lies on the line from the cursor on. -/
theorem isFrom_ofCursor? {c : Cursor} {a : Annotation} (h : ofCursor? c.skipSpaces = some a) :
    Statement.IsFrom c (Statement.annotation a) := by
  obtain ⟨⟨number, after⟩, hnumber, rfl⟩ := Option.map_eq_some_iff.mp h
  have hskip := Cursor.passes_skipSpaces c
  have hshows := Cursor.shows_of_number? hnumber
  obtain ⟨literal, -, hpassNumber, hvalue⟩ := Cursor.exists_literal_of_number? hnumber
  have hstop : number.span.stop = after.col := by rw [hvalue]
  have hpassPoints := Cursor.passes_skipSpaces after
  have hname : c.col ≤ number.span.start := hskip.col_le.trans hshows.col_le_start
  have hgroups : ∀ g ∈ [(number.span, [number])],
      Span.InOrder g.1.start (g.2.map Number.span) g.1.stop ∧ ∀ found ∈ g.2, c.Shows found := by
    intro g hg
    obtain rfl := List.mem_singleton.mp hg
    refine ⟨⟨Nat.le_refl _, hshows.start_le_stop, Nat.le_refl _⟩, fun found hfound => ?_⟩
    rw [List.mem_singleton.mp hfound]
    exact hshows.of_passes hskip
  dsimp only
  cases hpoints : points? after.skipSpaces with
  | none =>
      refine ⟨⟨hname, hshows.start_le_stop, Nat.le_refl _⟩, ?_, fun g hg => (hgroups g hg).1,
        fun g hg => (hgroups g hg).2, by simp [Statement.names]⟩
      change number.span.stop ≤ c.lineEnd
      exact (hshows.reaches_stop.of_passes hskip).le_lineEnd
  | some points =>
      obtain ⟨passed, behind, hpass, -, rfl⟩ := exists_passes_points? hpoints
      refine ⟨⟨hname, hshows.start_le_stop, hstop.le.trans hpassPoints.col_le, hpass.col_le,
        Nat.le_refl _⟩, ?_, fun g hg => (hgroups g hg).1, fun g hg => (hgroups g hg).2,
        by simp [Statement.names]⟩
      change Span.InOrder behind.col (textAt (after.seek behind.col)).toList c.lineEnd
      rw [(hpassPoints.trans hpass).seek_eq, ← (hskip.trans (hpassNumber.trans (hpassPoints.trans hpass))).lineEnd]
      exact inOrder_textAt behind

end Annotation

/-- Whatever a line is read as, its parts stand where it says and are what stands there. -/
theorem Statement.exists_isAt_of_ofLine? {kind : Kind} {line : Text} {s : Statement}
    (h : ofLine? kind line = some s) : ∃ c, kind.open? line = some c ∧ s.IsAt line c.col := by
  obtain ⟨c, hopen⟩ := exists_open? h
  obtain ⟨lead, -, hpass, -⟩ := Kind.exists_lead hopen
  refine ⟨c, hopen, IsFrom.isAt ?_ hpass⟩
  have hreads := reads_of_ofLine? h
  cases s with
  | placement p =>
      obtain rfl : Placement.ofCursor kind c.skipSpaces = p := by
        simpa [Placement.ofLine?, hopen] using hreads.2
      exact Placement.isFrom_ofCursor kind c
  | evolution e =>
      obtain ⟨rfl, he⟩ := hreads
      obtain rfl : Evolution.ofCursor c.skipSpaces = e := by
        simpa [Evolution.ofLine?, hopen] using he
      exact Evolution.isFrom_ofCursor c
  | region r =>
      obtain rfl : ⟨kind, c.col, (c.skipSpaces.bracket? 4).map Prod.fst⟩ = r := by
        simpa [Region.ofLine?, hopen] using hreads.2
      exact Region.isFrom_ofCursor kind c
  | annotation a =>
      obtain ⟨rfl, ha⟩ := hreads
      refine Annotation.isFrom_ofCursor? ?_
      simpa [hopen, Annotation.ofLine?] using ha

end WardleyMap
