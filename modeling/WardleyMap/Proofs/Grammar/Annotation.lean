import WardleyMap.Proofs.Grammar.Part

/-!
# Phrases of annotations

An annotation has a number, one point or a group of points, and a remark that runs to the end of the line.
The reader of a group is bounded by the number of characters it starts with. The induction goes along
the points, and the bound is only ever asked to exceed the number of points that are left. Conversely,
every line whose points are read is such a phrase, with whatever follows the points for its tail.
-/

namespace WardleyMap

namespace Grammar

structure Point where
  before : Spaces
  x : Field
  y : Field
  after : Spaces

def Point.fromBracket (p : Point) : Text :=
  Field.bracketed [p.x, p.y] ++ p.after.text

def groupText : (first : Point) → (others : List Point) → Text
  | p, [] => p.fromBracket ++ [']']
  | p, q :: others => p.fromBracket ++ ',' :: (q.before.text ++ groupText q others)

inductive Points where
  | single (x y : Field)
  | group (first : Point) (others : List Point)

def Points.text : Points → Text
  | single x y => Field.bracketed [x, y]
  | group first others => '[' :: (first.before.text ++ groupText first others)

theorem length_lt_groupText (p : Point) (others : List Point) :
    others.length < (groupText p others).length := by
  induction others generalizing p with
  | nil => simp [groupText]
  | cons q others ih =>
      have := ih q
      simp only [groupText, List.length_append, List.length_cons]
      omega

theorem head?_groupText (p : Point) (others : List Point) (rest : Text) :
    (groupText p others ++ rest).head? = some '[' := by
  cases others with
  | nil | cons => rfl

/-- A point is passed together with the spaces behind it. -/
theorem bracket?_fromBracket (p : Point) (rest : Text) (hrest : ∀ ch ∈ rest.head?, isSpace ch = false)
    (col : Nat) : ∃ point after,
      (⟨col, p.fromBracket ++ rest⟩ : Cursor).bracket? 2 = some (point, after) ∧
      after.skipSpaces = ⟨col + p.fromBracket.length, rest⟩ := by
  have hpass : Cursor.Passes ⟨col, p.fromBracket ++ rest⟩ (Field.bracketed [p.x, p.y])
      ⟨col + (Field.bracketed [p.x, p.y]).length, p.after.text ++ rest⟩ :=
    ⟨List.append_assoc .., rfl⟩
  refine ⟨_, _, Cursor.bracket?_eq_some_iff.mpr ⟨[p.x, p.y], rfl, hpass, rfl⟩, ?_⟩
  refine Cursor.skipSpaces_eq ⟨rfl, ?_⟩ p.after.isSpace hrest
  rw [Point.fromBracket, List.length_append, Nat.add_assoc]

theorem groupEnd?_succ {bound : Nat} {c after : Cursor} {point : Bracket}
    (h : c.bracket? 2 = some (point, after)) : Annotation.groupEnd? (bound + 1) c =
      match after.skipSpaces.accept? ',' with
      | some c => Annotation.groupEnd? bound c.skipSpaces
      | none => after.skipSpaces.accept? ']' := by
  rw [ Annotation.groupEnd?, h]
  rfl

/-- A group of points is passed up to its closing bracket, if the bound leaves room for all of its points. -/
theorem groupEnd?_groupText (p : Point) (others : List Point) {bound : Nat}
    (hbound : others.length < bound) (col : Nat) (rest : Text) :
    Annotation.groupEnd? bound ⟨col, groupText p others ++ rest⟩
      = some ⟨col + (groupText p others).length, rest⟩ := by
  induction others generalizing p bound col with
  | nil =>
      obtain ⟨bound, rfl⟩ : ∃ n, bound = n + 1 := ⟨bound - 1, by omega⟩
      obtain ⟨point, after, hbracket, hskip⟩ :=
        bracket?_fromBracket p (']' :: rest) (by simp; decide) col
      have hcomma : (⟨col + p.fromBracket.length, ']' :: rest⟩ : Cursor).accept? ',' = none := by
        simp [Cursor.accept?]
      have hclose := Cursor.accept?_eq_some_iff.mpr
        (Cursor.Passes.mk_append (col + p.fromBracket.length) [']'] rest)
      have hsplit : groupText p [] ++ rest = p.fromBracket ++ ']' :: rest := by
        simp only [groupText, List.append_assoc, List.cons_append, List.nil_append]
      rw [hsplit, groupEnd?_succ hbracket]
      simp only [hskip, hcomma]
      rw [groupText, List.length_append, ← Nat.add_assoc]
      exact hclose
  | cons q others ih =>
      obtain ⟨bound, rfl⟩ : ∃ n, bound = n + 1 := ⟨bound - 1, by omega⟩
      rw [List.length_cons] at hbound
      let behind : Text := q.before.text ++ (groupText q others ++ rest)
      obtain ⟨point, after, hbracket, hskip⟩ :=
        bracket?_fromBracket p (',' :: behind) (by simp; decide) col
      have hcomma := Cursor.accept?_eq_some_iff.mpr
        (Cursor.Passes.mk_append (col + p.fromBracket.length) [','] behind)
      have hnext : (⟨col + p.fromBracket.length + 1, behind⟩ : Cursor).skipSpaces
          = ⟨col + p.fromBracket.length + 1 + q.before.text.length, groupText q others ++ rest⟩ := by
        refine Cursor.skipSpaces_eq ⟨rfl, rfl⟩ q.before.isSpace ?_
        exact not_isSpace_of_head? (head?_groupText q others rest)
      have hsplit : groupText p (q :: others) ++ rest = p.fromBracket ++ ',' :: behind := by
        simp only [groupText, behind, List.append_assoc, List.cons_append]
      have hlength : (groupText p (q :: others)).length
          = p.fromBracket.length + 1 + q.before.text.length + (groupText q others).length := by
        simp only [groupText, List.length_append, List.length_cons]
        omega
      rw [hsplit, groupEnd?_succ hbracket]
      simp only [hskip]
      rw [show ',' :: behind = [','] ++ behind from rfl, hcomma]
      dsimp only [List.length_singleton]
      rw [hnext, ih q (by omega), hlength]
      simp only [Nat.add_assoc]

/-- A bracket that opens a point is not followed by another one. -/
theorem head_skipSpaces_join (x y : Field) (col : Nat) (rest : Text) :
    (⟨col, Field.join [x, y] ++ rest⟩ : Cursor).skipSpaces.rest.head? ≠ some '[' := by
  let behind : Text := x.after ++ (',' :: (y.text ++ rest))
  have hpass : Cursor.Passes ⟨col, Field.join [x, y] ++ rest⟩ x.before
      ⟨col + x.before.length, x.literal ++ behind⟩ := by
    refine ⟨?_, rfl⟩
    simp only [Field.join, Field.text, behind, List.append_assoc, List.cons_append]
  rw [Cursor.skipSpaces_eq hpass x.isSpace_before (Cursor.head_literal_append x.isLiteral)]
  obtain ⟨d, literal, hliteral⟩ := List.exists_cons_of_ne_nil (Decimal.literal_ne_nil x.isLiteral)
  rw [hliteral]
  intro hhead
  obtain rfl : d = '[' := by simpa using hhead
  exact Decimal.not_mem_literal x.isLiteral (by decide) (hliteral ▸ List.mem_cons_self)

/-- The points are read as one span, whatever stands behind them. -/
theorem points?_text (points : Points) (col : Nat) (rest : Text) :
    Annotation.points? ⟨col, points.text ++ rest⟩ = some ⟨col, col + points.text.length⟩ := by
  cases points with
  | single x y =>
      have hopen : (⟨col, Field.bracketed [x, y] ++ rest⟩ : Cursor).accept? '['
          = some ⟨col + 1, Field.join [x, y] ++ (']' :: rest)⟩ := by
        refine Cursor.accept?_eq_some_iff.mpr ⟨?_, rfl⟩
        simp [Field.bracketed]
      have hbracket := @Cursor.bracket?_bracketed [x, y] 1 rfl col rest
      rw [Points.text, Annotation.points?, hopen]
      dsimp only [bind, Option.bind_some]
      rw [if_neg (head_skipSpaces_join x y (col + 1) (']' :: rest)), hbracket]
      rfl
  | group first others =>
      let behind : Text := groupText first others ++ rest
      have hsplit : (Points.group first others).text ++ rest = '[' :: (first.before.text ++ behind) := by
        simp only [Points.text, behind, List.append_assoc, List.cons_append]
      have hopen := Cursor.accept?_eq_some_iff.mpr
        (Cursor.Passes.mk_append col ['['] (first.before.text ++ behind))
      have hhead : behind.head? = some '[' := head?_groupText first others rest
      have hskip : (⟨col + 1, first.before.text ++ behind⟩ : Cursor).skipSpaces
          = ⟨col + 1 + first.before.text.length, behind⟩ := by
        exact Cursor.skipSpaces_eq ⟨rfl, rfl⟩ first.before.isSpace (not_isSpace_of_head? hhead)
      have hbound : others.length < behind.length := by
        have := length_lt_groupText first others
        simp only [behind, List.length_append]
        omega
      have hend := groupEnd?_groupText first others hbound
        (col + 1 + first.before.text.length) rest
      have hlength : (Points.group first others).text.length
          = 1 + first.before.text.length + (groupText first others).length := by
        simp only [Points.text, List.length_append, List.length_cons]
        omega
      rw [hsplit, Annotation.points?]
      rw [show ('[' :: (first.before.text ++ behind)) = ['['] ++ (first.before.text ++ behind) from rfl,
        hopen]
      dsimp only [bind, Option.bind_some, List.length_singleton]
      rw [hskip, if_pos hhead]
      change ( Annotation.groupEnd? behind.length ⟨_, groupText first others ++ rest⟩).bind _ = _
      rw [hend, hlength]
      dsimp only [Option.bind_some]
      simp only [Nat.add_assoc]
      rfl

/-- A group that was read is one of the grammar. The spaces in front of its first point are read before it. -/
theorem exists_groupText {bound : Nat} {c c' : Cursor} (h : Annotation.groupEnd? bound c = some c')
    (before : Spaces) : ∃ first others, Point.before first = before ∧
      c.Passes (groupText first others) c' := by
  induction bound generalizing c before with
  | zero => simp [ Annotation.groupEnd?] at h
  | succ bound ih =>
      simp only [ Annotation.groupEnd?, bind, Option.bind_eq_some_iff] at h
      obtain ⟨⟨point, c₁⟩, hpoint, h⟩ := h
      obtain ⟨fs, hlength, hpassPoint, -⟩ := Cursor.bracket?_eq_some_iff.mp hpoint
      obtain ⟨x, y, rfl⟩ := List.length_eq_two.mp hlength
      obtain ⟨after, hafter, hpassAfter, -⟩ := Cursor.exists_skipSpaces c₁
      let first : Point := ⟨before, x, y, ⟨after, hafter⟩⟩
      have hpassFirst : c.Passes first.fromBracket c₁.skipSpaces := hpassPoint.trans hpassAfter
      split at h
      · next c₂ hcomma =>
          obtain ⟨gap, hgap, hpassGap, -⟩ := Cursor.exists_skipSpaces c₂
          obtain ⟨q, others, hq, hpassOthers⟩ := ih h ⟨gap, hgap⟩
          refine ⟨first, q :: others, rfl, ?_⟩
          rw [groupText, hq]
          exact hpassFirst.trans ((Cursor.accept?_eq_some_iff.mp hcomma).trans
            (hpassGap.trans hpassOthers))
      · exact ⟨first, [], rfl, hpassFirst.trans (Cursor.accept?_eq_some_iff.mp h)⟩

/-- Points that were read are points of the grammar. -/
theorem exists_points {c : Cursor} {span : Span} (h : Annotation.points? c = some span) :
    ∃ points c', c.Passes (Points.text points) c' ∧ span = ⟨c.col, c'.col⟩ := by
  simp only [ Annotation.points?, bind, Option.bind_eq_some_iff] at h
  obtain ⟨inner, hinner, h⟩ := h
  split at h
  · obtain ⟨c', hgroup, heq⟩ := Option.bind_eq_some_iff.mp h
    obtain rfl := Option.some.inj heq
    obtain ⟨before, hbefore, hpassBefore, -⟩ := Cursor.exists_skipSpaces inner
    obtain ⟨first, others, hfirst, hpassGroup⟩ := exists_groupText hgroup ⟨before, hbefore⟩
    refine ⟨.group first others, c', ?_, rfl⟩
    rw [Points.text, hfirst]
    exact (Cursor.accept?_eq_some_iff.mp hinner).trans (hpassBefore.trans hpassGroup)
  · obtain ⟨⟨point, c'⟩, hpoint, heq⟩ := Option.bind_eq_some_iff.mp h
    obtain rfl := Option.some.inj heq
    obtain ⟨fs, hlength, hpass, rfl⟩ := Cursor.bracket?_eq_some_iff.mp hpoint
    obtain ⟨x, y, rfl⟩ := List.length_eq_two.mp hlength
    exact ⟨.single x y, c', hpass, by rw [hpass.col]; rfl⟩

/-- A line of an annotation: its number, its points and any remark. -/
structure AnnotationPhrase where
  lead : Spaces
  gap : Gap
  number : Numeral
  inner : Spaces
  points : Points
  tail : Text

namespace AnnotationPhrase

variable (a : AnnotationPhrase)

def text : Text :=
  a.lead.text ++ (Kind.keyword Kind.annotation ++ (a.gap.text ++ (a.number.text ++
    (a.inner.text ++ (a.points.text ++ a.tail)))))

def numberStart : Nat :=
  a.lead.text.length + (Kind.keyword Kind.annotation).length + a.gap.text.length

def numberStop : Nat :=
  a.numberStart + a.number.text.length

def pointsStart : Nat :=
  a.numberStop + a.inner.text.length

def pointsStop : Nat :=
  a.pointsStart + a.points.text.length

def remark : Option Span :=
  if a.tail.isAllBlank then none
  else some ⟨a.pointsStop + (a.tail.takeWhile isBlank).length, a.pointsStop + a.tail.length⟩

def statement : Statement :=
  Statement.annotation ⟨⟨⟨a.numberStart, a.numberStop⟩, Decimal.value a.number.text⟩,
    some ⟨a.pointsStart, a.pointsStop⟩, a.remark⟩

theorem ofLine?_text : Statement.ofLine? Kind.annotation a.text = some a.statement := by
  let afterNumber : Cursor := ⟨a.numberStop, a.inner.text ++ (a.points.text ++ a.tail)⟩
  let afterPoints : Cursor := ⟨a.pointsStop, a.tail⟩
  have hopens : Kind.Opens Kind.annotation a.text a.lead.text a.gap.text
      ⟨a.numberStart, a.number.text ++ afterNumber.rest⟩ := by
    refine ⟨Cursor.passes_ofLine_iff.mpr ⟨?_, ?_⟩, a.lead.isSpace, a.gap.isSpace,
      Cursor.head_literal_append a.number.isLiteral, .inl a.gap.ne_nil⟩
    · simp only [text, afterNumber, List.append_assoc]
    · simp only [numberStart, List.length_append, Nat.add_assoc]
  have hpoints : (a.points.text ++ a.tail).head? = some '[' := by
    cases a.points with
    | single | group => rfl
  have hstops : Decimal.Stops afterNumber.rest := by
    refine Cursor.stops_of_isSpace a.inner.isSpace ?_
    obtain ⟨rest, hrest⟩ := List.head?_eq_some_iff.mp hpoints
    rw [hrest]
    exact Decimal.stops_cons (by decide) (by decide) rest
  have hnumber := Cursor.number?_of_passes
    (Cursor.Passes.mk_append a.numberStart a.number.text afterNumber.rest) a.number.isLiteral hstops
  have hskip : afterNumber.skipSpaces = ⟨a.pointsStart, a.points.text ++ a.tail⟩ :=
    Cursor.skipSpaces_eq ⟨rfl, rfl⟩ a.inner.isSpace (not_isSpace_of_head? hpoints)
  have hseek : afterNumber.seek a.pointsStop = afterPoints := by
    have hpass : afterNumber.Passes (a.inner.text ++ a.points.text) afterPoints := by
      refine ⟨(List.append_assoc ..).symm, ?_⟩
      simp only [afterPoints, afterNumber, pointsStop, pointsStart, List.length_append, Nat.add_assoc]
    exact hpass.seek_eq
  have hread : Annotation.ofCursor? ⟨a.numberStart, a.number.text ++ afterNumber.rest⟩
      = some ⟨⟨⟨a.numberStart, a.numberStop⟩, Decimal.value a.number.text⟩,
          some ⟨a.pointsStart, a.pointsStop⟩, a.remark⟩ := by
    unfold Annotation.ofCursor?
    rw [hnumber, Option.map_some]
    change some ( Annotation.mk _ ( Annotation.points? afterNumber.skipSpaces)
      (( Annotation.points? afterNumber.skipSpaces).bind
        fun span => Annotation.textAt (afterNumber.seek span.stop))) = _
    rw [hskip, points?_text, Option.bind_some]
    change some ( Annotation.mk _ _ ( Annotation.textAt (afterNumber.seek a.pointsStop))) = _
    rw [hseek]
    rfl
  rw [Statement.ofLine?, Annotation.ofLine?, hopens.open?_eq, Option.bind_some, hopens.skipSpaces_eq,
    hread]
  rfl

end AnnotationPhrase

/-- Every line that is read as an annotation with points is a phrase. -/
theorem exists_annotationPhrase {line : Text} {a : Annotation} (h : Annotation.ofLine? line = some a)
    (hpoints : a.coordinates.isSome = true) :
    ∃ phrase : AnnotationPhrase, phrase.text = line ∧ phrase.statement = Statement.annotation a := by
  have hstatement := Annotation.statement_of_ofLine? h
  obtain ⟨c, hopen, h⟩ := Option.bind_eq_some_iff.mp h
  obtain ⟨lead, gap, hopens, hpassGap⟩ := Kind.exists_opens hopen
  obtain ⟨⟨number, c₁⟩, hnumber, rfl⟩ := Option.map_eq_some_iff.mp h
  obtain ⟨literal, hliteral, hpassNumber, -⟩ := Cursor.exists_literal_of_number? hnumber
  obtain ⟨inner, hinner, hpassInner, -⟩ := Cursor.exists_skipSpaces c₁
  obtain ⟨span, hspan⟩ := Option.isSome_iff_exists.mp hpoints
  obtain ⟨points, c', hpassPoints, -⟩ := exists_points hspan
  have hgap : gap ≠ [] := by
    -- right behind the keyword no number can start
    rintro rfl
    obtain ⟨d, tail, rfl⟩ := List.exists_cons_of_ne_nil (Decimal.literal_ne_nil hliteral)
    have hhead : d ∈ c.skipSpaces.rest.head? := by
      rw [hpassNumber.rest]
      rfl
    rcases hopens.boundary.resolve_left (· rfl) d hhead with hblank | rfl
    · rw [Decimal.not_isBlank_of_mem hliteral d List.mem_cons_self] at hblank
      exact absurd hblank (by decide)
    · exact absurd List.mem_cons_self (Decimal.not_mem_literal hliteral rfl)
  let phrase : AnnotationPhrase := ⟨⟨lead, hopens.isSpace_lead⟩, ⟨⟨gap, hopens.isSpace_gap⟩, hgap⟩,
    ⟨literal, hliteral⟩, ⟨inner, hinner⟩, points, c'.rest⟩
  have hline : phrase.text = line := by
    rw [(Cursor.passes_ofLine_iff.mp (hopens.passes.trans
      (hpassNumber.trans (hpassInner.trans hpassPoints)))).1]
    simp only [AnnotationPhrase.text, phrase, List.append_assoc]
  refine ⟨phrase, hline, ?_⟩
  rw [← hline, phrase.ofLine?_text] at hstatement
  exact Option.some.inj hstatement

end Grammar

end WardleyMap
