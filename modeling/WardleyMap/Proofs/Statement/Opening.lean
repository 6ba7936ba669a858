import WardleyMap.Proofs.Statement.Clause
import WardleyMap.Statement.Read

/-!
# How a line opens

A line of every kind but a region's is read in the same two steps: the spaces and the keyword in front, and
the spaces behind the keyword. `Kind.Opens` names the pieces. What comes behind them may be
exchanged freely, as long as it does not run into the keyword or prolong the spaces.
-/

namespace WardleyMap

namespace Kind

/-- The line opens with spaces, the keyword and more spaces, and goes on at `c`. -/
structure Opens (kind : Kind) (line lead gap : Text) (c : Cursor) : Prop where
  passes : Cursor.Passes (Cursor.ofLine line) (lead ++ (kind.keyword ++ gap)) c
  isSpace_lead : ∀ ch ∈ lead, isSpace ch = true
  isSpace_gap : ∀ ch ∈ gap, isSpace ch = true
  head : ∀ ch ∈ c.rest.head?, isSpace ch = false
  boundary : gap ≠ [] ∨ ∀ ch ∈ c.rest.head?, isBlank ch = true ∨ ch = '['

theorem atBoundary_iff {c : Cursor} :
    c.atBoundary = true ↔ ∀ ch ∈ c.rest.head?, isBlank ch = true ∨ ch = '[' := by
  unfold Cursor.atBoundary
  cases c.rest.head? with
  | none => simp
  | some ch => simp

theorem head_keyword_append (kind : Kind) (rest : Text) :
    ∀ ch ∈ (kind.keyword ++ rest).head?, isSpace ch = false := by
  obtain ⟨d, word, hword, hd⟩ : ∃ d word, kind.keyword = d :: word ∧ isSpace d = false := by
    cases kind <;> exact ⟨_, _, rfl, rfl⟩
  intro ch hch
  rw [hword] at hch
  obtain rfl : d = ch := Option.some.inj hch
  exact hd

theorem exists_lead {kind : Kind} {line : Text} {c : Cursor}
    (h : kind.open? line = some c) : ∃ lead : Text, (∀ ch ∈ lead, isSpace ch = true) ∧
      Cursor.Passes (Cursor.ofLine line) (lead ++ kind.keyword) c ∧ c.atBoundary = true := by
  obtain ⟨hword, hboundary⟩ := Cursor.keyword?_eq_some_iff.mp h
  obtain ⟨lead, hlead, hpassLead, -⟩ := Cursor.exists_skipSpaces (Cursor.ofLine line)
  exact ⟨lead, hlead, hpassLead.trans hword, hboundary⟩

/-- A line that opens with the keyword is spaces, the keyword, more spaces and the rest. -/
theorem exists_opens {kind : Kind} {line : Text} {c : Cursor} (h : kind.open? line = some c) :
    ∃ lead gap, kind.Opens line lead gap c.skipSpaces ∧ Cursor.Passes c gap c.skipSpaces := by
  obtain ⟨hword, hboundary⟩ := Cursor.keyword?_eq_some_iff.mp h
  obtain ⟨lead, hlead, hpassLead, -⟩ := Cursor.exists_skipSpaces (Cursor.ofLine line)
  obtain ⟨gap, hgap, hpassGap, hhead⟩ := Cursor.exists_skipSpaces c
  refine ⟨lead, gap, ⟨hpassLead.trans (hword.trans hpassGap), hlead, hgap, hhead, ?_⟩, hpassGap⟩
  by_cases hnil : gap = []
  · right
    have hrest := hpassGap.rest
    rw [hnil, List.nil_append] at hrest
    rw [← hrest]
    exact atBoundary_iff.mp hboundary
  · exact Or.inl hnil

namespace Opens

variable {kind : Kind} {line lead gap : Text} {c : Cursor}

theorem open?_eq (h : kind.Opens line lead gap c) :
    kind.open? line = some ⟨(lead ++ kind.keyword).length, gap ++ c.rest⟩ := by
  have hline : line = lead ++ (kind.keyword ++ (gap ++ c.rest)) := by
    have := (Cursor.passes_ofLine_iff.mp h.passes).1
    simpa using this
  have hlead : Cursor.Passes (Cursor.ofLine line) lead
      ⟨lead.length, kind.keyword ++ (gap ++ c.rest)⟩ :=
    Cursor.passes_ofLine_iff.mpr ⟨hline, rfl⟩
  unfold Kind.open?
  rw [Cursor.skipSpaces_eq hlead h.isSpace_lead (head_keyword_append kind _)]
  refine Cursor.keyword?_eq_some_iff.mpr ⟨⟨rfl, ?_⟩, atBoundary_iff.mpr ?_⟩
  · rw [List.length_append]
  · intro ch hch
    cases hgap : gap with
    | nil =>
        rcases h.boundary with hne | hboundary
        · exact absurd hgap hne
        · exact hboundary ch (by simpa [hgap] using hch)
    | cons d gap' =>
        rw [hgap] at hch
        obtain rfl : d = ch := by simpa using hch
        exact Or.inl (isBlank_of_isSpace (h.isSpace_gap d (hgap ▸ List.mem_cons_self)))

theorem skipSpaces_eq (h : kind.Opens line lead gap c) :
    (⟨(lead ++ kind.keyword).length, gap ++ c.rest⟩ : Cursor).skipSpaces = c := by
  refine Cursor.skipSpaces_eq ⟨rfl, ?_⟩ h.isSpace_gap h.head
  rw [(Cursor.passes_ofLine_iff.mp h.passes).2]
  simp only [List.length_append]
  omega

/-- The cursor after the spaces is all that a reader gets to see of the line. -/
theorem map_open? (h : kind.Opens line lead gap c) {α : Type} (read : Cursor → α) :
    ((kind.open? line).map fun c => read c.skipSpaces) = some (read c) := by
  rw [h.open?_eq, Option.map_some, h.skipSpaces_eq]

theorem of_rest (h : kind.Opens line lead gap c) {rest : Text}
    (hhead : ∀ ch ∈ rest.head?, isSpace ch = false)
    (hboundary : gap ≠ [] ∨ ∀ ch ∈ rest.head?, isBlank ch = true ∨ ch = '[') :
    kind.Opens (lead ++ (kind.keyword ++ gap) ++ rest) lead gap ⟨c.col, rest⟩ :=
  ⟨Cursor.passes_ofLine_iff.mpr ⟨rfl, (Cursor.passes_ofLine_iff.mp h.passes).2⟩,
    h.isSpace_lead, h.isSpace_gap, hhead, hboundary⟩

end Opens

end Kind

theorem Region.ofLine?_of_opens {kind : Kind} {line lead gap : Text} {c : Cursor}
    (h : kind.Opens line lead gap c) : Region.ofLine? kind line
      = some ⟨kind, (lead ++ kind.keyword).length, (c.bracket? 4).map Prod.fst⟩ := by
  rw [Region.ofLine?, h.open?_eq, Option.map_some, h.skipSpaces_eq]

/-- A bracket of four numbers behind the keyword is what a region reads, whatever follows it. -/
theorem Region.ofLine?_bracketed (kind : Kind) {lead gap : Text} (hlead : ∀ ch ∈ lead, isSpace ch = true)
    (hgap : ∀ ch ∈ gap, isSpace ch = true) {fs : List Field} (hfs : fs.length = 4) (tail : Text) :
    Region.ofLine? kind (lead ++ (kind.keyword ++ gap) ++ (Field.bracketed fs ++ tail))
      = some ⟨kind, (lead ++ kind.keyword).length,
          some (Field.bracket (lead ++ (kind.keyword ++ gap)).length fs)⟩ := by
  have hhead : ∀ ch ∈ (Field.bracketed fs ++ tail).head?, ch = '[' := fun ch hch => (Option.some.inj hch).symm
  have hopens : kind.Opens (lead ++ (kind.keyword ++ gap) ++ (Field.bracketed fs ++ tail)) lead gap
      ⟨(lead ++ (kind.keyword ++ gap)).length, Field.bracketed fs ++ tail⟩ := by
    refine ⟨Cursor.passes_ofLine_iff.mpr ⟨rfl, rfl⟩, hlead, hgap, fun ch hch => ?_, .inr fun ch hch => ?_⟩
    · rw [hhead ch hch]
      rfl
    · exact .inr (hhead ch hch)
  rw [ofLine?_of_opens hopens, Cursor.bracket?_bracketed hfs, Option.map_some]

theorem Statement.ofLine?_region {kind : Kind} (h : kind.isRegion = true) (line : Text) :
    Statement.ofLine? kind line = (Region.ofLine? kind line).map .region := by
  cases kind with
  | pioneers | settlers | townPlanners => rfl
  | component | note | anchor | pipeline | evolve | annotation => simp [Kind.isRegion] at h

theorem Annotation.statement_of_ofLine? {line : Text} {a : Annotation} (h : ofLine? line = some a) :
    Statement.ofLine? Kind.annotation line = some (Statement.annotation a) :=
  congrArg (Option.map Statement.annotation) h

/-- A line of each kind is read as a statement of one form, by the reader of that form. -/
theorem Statement.reads_of_ofLine? {kind : Kind} {line : Text} {statement : Statement}
    (h : ofLine? kind line = some statement) :
    match statement with
    | placement p => kind.isPlacement = true ∧ Placement.ofLine? kind line = some p
    | evolution e => kind = .evolve ∧ Evolution.ofLine? line = some e
    | region r => kind.isRegion = true ∧ Region.ofLine? kind line = some r
    | annotation a => kind = Kind.annotation ∧ Annotation.ofLine? line = some a := by
  cases kind with
  | component | note | anchor | pipeline =>
      obtain ⟨p, hp, rfl⟩ := Option.map_eq_some_iff.mp h
      exact ⟨rfl, hp⟩
  | evolve =>
      obtain ⟨e, he, rfl⟩ := Option.map_eq_some_iff.mp h
      exact ⟨rfl, he⟩
  | pioneers | settlers | townPlanners =>
      obtain ⟨r, hr, rfl⟩ := Option.map_eq_some_iff.mp h
      exact ⟨rfl, hr⟩
  | annotation =>
      obtain ⟨a, ha, rfl⟩ := Option.map_eq_some_iff.mp h
      exact ⟨rfl, ha⟩

theorem Statement.kind_of_ofLine? {kind : Kind} {line : Text} {statement : Statement}
    (h : ofLine? kind line = some statement) :
    match statement with
    | placement _ => kind.isPlacement = true
    | evolution _ => kind = .evolve
    | region _ => kind.isRegion = true
    | annotation _ => kind = Kind.annotation := by
  have hreads := reads_of_ofLine? h
  cases statement with
  | placement p | evolution e | region r | annotation a => exact hreads.1

theorem Kind.ne_annotation_of_isPlacement {kind : Kind} (h : kind.isPlacement = true) :
    kind ≠ Kind.annotation := by
  rintro rfl
  exact absurd h (by decide)

theorem Kind.ne_annotation_of_isRegion {kind : Kind} (h : kind.isRegion = true) :
    kind ≠ Kind.annotation := by
  rintro rfl
  exact absurd h (by decide)

theorem Statement.isSome_ofLine? {kind : Kind} (hkind : kind ≠ Kind.annotation) (line : Text) :
    (ofLine? kind line).isSome = (kind.open? line).isSome := by
  cases kind with
  | component | note | anchor | pipeline =>
      simp only [ofLine?, Placement.ofLine?, Option.isSome_map]
  | evolve => simp only [ofLine?, Evolution.ofLine?, Option.isSome_map]
  | pioneers | settlers | townPlanners => simp only [ofLine?, Region.ofLine?, Option.isSome_map]
  | annotation => exact absurd rfl hkind

theorem Statement.exists_open? {kind : Kind} {line : Text} {statement : Statement}
    (h : ofLine? kind line = some statement) : ∃ c, kind.open? line = some c := by
  rw [← Option.isSome_iff_exists]
  by_cases hkind : kind = Kind.annotation
  · subst hkind
    obtain ⟨a, ha, -⟩ := Option.map_eq_some_iff.mp h
    obtain ⟨c, hopen, -⟩ := Option.bind_eq_some_iff.mp ha
    rw [hopen]
    rfl
  · rw [← isSome_ofLine? hkind, h]
    rfl

end WardleyMap
