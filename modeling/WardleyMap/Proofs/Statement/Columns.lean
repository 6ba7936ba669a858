import WardleyMap.Proofs.Edit.Deletion
import WardleyMap.Proofs.Edit.Numbers
import WardleyMap.Proofs.Name.Arrow
import WardleyMap.Proofs.Statement.Word

/-!
# Where the parts of a statement stand

For any line, whatever its names look like, the parts that are reported stand behind the keyword. A
number is more than that: it is a literal, and neither a blank nor a bracket opens one, so no number can
start right behind a keyword. A name can end there, but then it is empty.
-/

namespace WardleyMap

open Text

namespace Cursor

variable {c c' : Cursor} {passed : Text} {col stop : Nat} {number : Number}

def Reaches (c : Cursor) (col : Nat) : Prop :=
  ∃ passed c', c.Passes passed c' ∧ c'.col = col

/-- The number is written somewhere from the cursor on, and is read as it is written. -/
def Shows (c : Cursor) (number : Number) : Prop :=
  ∃ passed literal c', c.Passes (passed ++ literal) c' ∧ Decimal.isLiteral literal = true ∧
    number = ⟨⟨c.col + passed.length, c'.col⟩, Decimal.value literal⟩

theorem Passes.reaches (h : c.Passes passed c') : c.Reaches c'.col :=
  ⟨passed, c', h, rfl⟩

theorem Passes.col_le (h : c.Passes passed c') : c.col ≤ c'.col := by
  rw [h.col]
  exact Nat.le_add_right _ _

theorem Passes.eq_of_col (h : c.Passes passed c') (hcol : c'.col ≤ c.col) : c' = c := by
  have hlength := h.col
  obtain rfl : passed = [] := List.length_eq_zero_iff.mp (by omega)
  exact h.right_unique (.refl c)

theorem Reaches.of_passes (hc : c'.Reaches col) (h : c.Passes passed c') : c.Reaches col := by
  obtain ⟨more, c'', hmore, hcol⟩ := hc
  exact ⟨passed ++ more, c'', h.trans hmore, hcol⟩

theorem Reaches.of_clip (h : (c.clip stop).Reaches col) : c.Reaches col := by
  obtain ⟨passed, c', hpass, hcol⟩ := h
  obtain ⟨c'', hpass', hcol'⟩ := hpass.of_clip
  exact ⟨passed, c'', hpass', hcol'.trans hcol⟩

theorem Reaches.le (h : c.Reaches col) : c.col ≤ col := by
  obtain ⟨passed, c', hpass, rfl⟩ := h
  exact hpass.col_le

theorem Reaches.of_le (h : c.Reaches stop) (hle : c.col ≤ col) (hstop : col ≤ stop) : c.Reaches col := by
  obtain ⟨passed, c', hpass, rfl⟩ := h
  rw [hpass.col] at hstop
  have hlength : col - c.col ≤ c.rest.length := by
    rw [hpass.rest, List.length_append]
    omega
  refine ⟨_, _, passes_advance c hlength, ?_⟩
  exact Nat.add_sub_of_le hle

/-- The cursor can be moved there. -/
theorem Reaches.passes_seek (h : c.Reaches col) :
    (∃ passed, c.Passes passed (c.seek col)) ∧ (c.seek col).col = col := by
  obtain ⟨passed, c', hpass, rfl⟩ := h
  rw [hpass.seek_eq]
  exact ⟨⟨passed, hpass⟩, rfl⟩

theorem Reaches.rest_ne_nil (h : c.Reaches col) (hlt : c.col < col) : c.rest ≠ [] := by
  obtain ⟨passed, c', hpass, rfl⟩ := h
  intro hnil
  obtain ⟨rfl, -⟩ := List.append_eq_nil_iff.mp (hpass.rest.symm.trans hnil)
  rw [hpass.col] at hlt
  exact Nat.lt_irrefl _ hlt

theorem Shows.of_passes (hc : c'.Shows number) (h : c.Passes passed c') : c.Shows number := by
  obtain ⟨more, literal, c'', hmore, hliteral, rfl⟩ := hc
  refine ⟨passed ++ more, literal, c'', ?_, hliteral, ?_⟩
  · rw [List.append_assoc]
    exact h.trans hmore
  · rw [h.col, List.length_append, Nat.add_assoc]

theorem Shows.of_clip (h : (c.clip stop).Shows number) : c.Shows number := by
  obtain ⟨passed, literal, c', hpass, hliteral, rfl⟩ := h
  obtain ⟨c'', hpass', hcol⟩ := hpass.of_clip
  exact ⟨passed, literal, c'', hpass', hliteral, by rw [hcol]; rfl⟩

theorem Shows.reaches_start (h : c.Shows number) : c.Reaches number.span.start := by
  obtain ⟨passed, literal, c', hpass, -, rfl⟩ := h
  exact ⟨passed, ⟨_, literal ++ c'.rest⟩, ⟨by rw [hpass.rest, List.append_assoc], rfl⟩, rfl⟩

theorem Shows.reaches_stop (h : c.Shows number) : c.Reaches number.span.stop := by
  obtain ⟨passed, literal, c', hpass, -, rfl⟩ := h
  exact hpass.reaches

/-- A literal does not stand where a keyword may end. -/
theorem Shows.lt (h : c.Shows number) (hboundary : c.atBoundary = true) :
    c.col < number.span.start := by
  obtain ⟨passed, literal, c', hpass, hliteral, rfl⟩ := h
  cases passed with
  | cons ch passed => exact Nat.lt_add_of_pos_right (Nat.succ_pos _)
  | nil =>
      obtain ⟨d, literal, rfl⟩ := List.exists_cons_of_ne_nil (Decimal.literal_ne_nil hliteral)
      have hhead : d ∈ c.rest.head? := by
        rw [hpass.rest]
        rfl
      rcases Kind.atBoundary_iff.mp hboundary d hhead with hblank | rfl
      · rw [Decimal.not_isBlank_of_mem hliteral d List.mem_cons_self] at hblank
        exact absurd hblank (by decide)
      · exact absurd List.mem_cons_self (Decimal.not_mem_literal hliteral rfl)

/-! ### Clauses -/

theorem shows_of_number? (h : c.number? = some (number, c')) : c.Shows number := by
  obtain ⟨literal, hliteral, hpass, rfl⟩ := exists_literal_of_number? h
  exact ⟨[], literal, c', hpass, hliteral, rfl⟩

/-- Every number of a row of fields is written where its span says. -/
theorem shows_of_mem_numbers {fs : List Field} {rest : Text}
    (h : number ∈ Field.numbers col fs) : (⟨col, Field.join fs ++ rest⟩ : Cursor).Shows number := by
  induction fs generalizing col with
  | nil => simp [Field.numbers] at h
  | cons f fs ih =>
      rw [Field.join_cons, List.append_assoc]
      rcases List.mem_cons.mp h with rfl | h
      · refine ⟨f.before, f.literal, ⟨col + (f.before ++ f.literal).length,
          f.after ++ (Field.joinTail fs ++ rest)⟩, ⟨?_, rfl⟩, f.isLiteral, ?_⟩
        · simp only [Field.text, List.append_assoc]
        · simp only [Field.number, List.length_append, Nat.add_assoc]
      · cases fs with
        | nil => simp [Field.numbers] at h
        | cons g fs =>
            have hpass : (⟨col, f.text ++ (Field.joinTail (g :: fs) ++ rest)⟩ : Cursor).Passes
                (f.text ++ [',']) ⟨col + f.text.length + 1, Field.join (g :: fs) ++ rest⟩ := by
              refine ⟨?_, by rw [List.length_append, List.length_singleton, Nat.add_assoc]⟩
              simp only [Field.joinTail, List.append_assoc, List.cons_append, List.nil_append]
            exact (ih h).of_passes hpass

theorem shows_of_mem_bracket {n : Nat} {bracket : Bracket}
    (h : c.bracket? (n + 1) = some (bracket, c')) (hmem : number ∈ bracket.values) :
    c.Shows number := by
  obtain ⟨fs, -, hpass, rfl⟩ := bracket?_eq_some_iff.mp h
  have hopen : c.Passes ['['] ⟨c.col + 1, Field.join fs ++ (']' :: c'.rest)⟩ := by
    refine ⟨?_, rfl⟩
    rw [hpass.rest, Field.bracketed]
    simp only [List.append_assoc, List.cons_append, List.nil_append]
  exact (shows_of_mem_numbers hmem).of_passes hopen

theorem shows_of_label? {label : LabelClause} (h : c.label? = some label) :
    ∀ number ∈ [label.dx, label.dy], c.Shows number := by
  obtain ⟨before, gap, f, g, rest, -, hrest, rfl, -⟩ := exists_beforeLabel h
  have hopen : c.Passes (before ++ (['l', 'a', 'b', 'e', 'l'] ++ (gap ++ ['['])))
      ⟨c.col + before.length + 5 + gap.length + 1, Field.join [f, g] ++ (']' :: rest)⟩ := by
    refine ⟨?_, ?_⟩
    · rw [hrest, Field.labelled, Field.bracketed]
      simp only [List.append_assoc, List.cons_append, List.nil_append]
    · simp only [List.length_append, List.length_cons, List.length_nil]
      omega
  exact fun number hmem => (shows_of_mem_numbers hmem).of_passes hopen

/-- The last number of a line is a token of it. -/
theorem shows_of_lastNumber? (h : c.lastNumber? = some number) : c.Shows number := by
  have hmem : number ∈ c.numbers := List.mem_of_getLast? (lastNumber?_eq c ▸ h)
  clear h
  obtain ⟨col, s⟩ := c
  induction s using Text.tokenInduction generalizing col with
  | nil => simp [numbers, tokens, Token.scan] at hmem
  | blank ch s hch ih =>
      rw [numbers_blank hch] at hmem
      exact (ih _ hmem).of_passes (.mk_append col [ch] s)
  | token token rest htoken ih =>
      rw [numbers_token htoken, List.mem_append] at hmem
      rcases hmem with hmem | hmem
      · split at hmem
        · next hliteral =>
            rw [List.mem_singleton.mp hmem]
            exact ⟨[], token, _, .mk_append col token rest, hliteral, rfl⟩
        · simp at hmem
      · exact (ih _ hmem).of_passes (.mk_append col token rest)

end Cursor

/-! ### Placements -/

namespace Placement

variable {kind : Kind}

theorem Written.head {before written rest value : Text} (h : Written before written rest value) :
    ∀ ch ∈ written.head?, isBlank ch = false ∧ ch ≠ '[' := by
  intro ch hch
  cases h with
  | quoted hquoted =>
      obtain rfl := Option.some.inj (hquoted.head?.symm.trans hch)
      decide
  | bare htrims _ hno_bracket _ =>
      refine ⟨htrims.head ch hch, ?_⟩
      rintro rfl
      refine hno_bracket (List.mem_append_left _ (List.mem_append_right _ ?_))
      exact List.mem_of_head? hch

theorem Written.eq_nil {before written rest value : Text} (h : Written before written rest value)
    (hnil : written = []) : before = [] ∧ value = [] := by
  cases h with
  | quoted hquoted =>
      have := hquoted.head?
      simp [hnil] at this
  | bare htrims _ _ _ => exact ⟨htrims.before_nil hnil, hnil⟩

/-- Where the name of a placement stands, and where its coordinates and its label are looked for. -/
structure Columns (c : Cursor) (p : Placement) : Prop where
  name_start : c.col ≤ p.name.span.start
  name_le : p.name.span.start ≤ p.name.span.stop
  name_stop : c.Reaches p.name.span.stop
  /-- A name that starts where a keyword may end is empty. -/
  name_eq_nil : c.atBoundary = true → p.name.span.start = c.col →
    p.name.span.stop = c.col ∧ p.name.value = []
  coordinates : ∀ bracket ∈ p.coordinates, c.Reaches bracket.span.stop ∧
    ∀ number ∈ bracket.values, c.Shows number
  label : ∀ label ∈ p.label, ∀ number ∈ [label.dx, label.dy], c.Shows number

/-- Wherever the reader looks for a part of a placement is a column of the line. -/
theorem columns_ofCursor (kind : Kind) (c : Cursor) : Columns c (ofCursor kind c) := by
  obtain ⟨before, written, rest, value, hrest, hname⟩ := exists_written c.rest
  have hpass : c.Passes (before ++ written) ⟨c.col + (before ++ written).length, rest⟩ :=
    ⟨by rw [hrest, List.append_assoc], rfl⟩
  have hnameAt := hname.nameAt_eq hpass rfl
  have hafter : c.seek (nameAt c).span.stop = ⟨c.col + (before ++ written).length, rest⟩ := by
    rw [hnameAt]
    exact hpass.seek_eq
  have hskip := Cursor.passes_skipSpaces ⟨c.col + (before ++ written).length, rest⟩
  unfold ofCursor
  simp only [hafter]
  refine ⟨?_, ?_, ?_, ?_, ?_, ?_⟩
  · rw [hnameAt]
    exact Nat.le_add_right _ _
  · rw [hnameAt]
    simp only [List.length_append]
    omega
  · rw [hnameAt]
    exact hpass.reaches
  · rw [hnameAt]
    intro hboundary hstart
    obtain rfl : before = [] := List.length_eq_zero_iff.mp (Nat.add_eq_left.mp hstart)
    have hnil : written = [] := by
      by_contra hne
      obtain ⟨ch, tail, rfl⟩ := List.exists_cons_of_ne_nil hne
      obtain ⟨hblank, hbracket⟩ := hname.head ch rfl
      have hhead : ch ∈ c.rest.head? := by
        rw [hrest]
        rfl
      rcases Kind.atBoundary_iff.mp hboundary ch hhead with hch | hch
      · rw [hblank] at hch
        exact absurd hch (by decide)
      · exact hbracket hch
    exact ⟨by simp [hnil], (hname.eq_nil hnil).2⟩
  · intro bracket hbracket
    obtain ⟨⟨found, after⟩, hread, rfl⟩ := Option.map_eq_some_iff.mp hbracket
    obtain ⟨fs, -, hpassBracket, rfl⟩ := Cursor.bracket?_eq_some_iff.mp hread
    refine ⟨⟨_, after, hpass.trans (hskip.trans hpassBracket), hpassBracket.col⟩,
      fun number hmem => ?_⟩
    exact ((Cursor.shows_of_mem_bracket hread hmem).of_passes hskip).of_passes hpass
  · intro label hlabel number hmem
    split at hlabel
    · next found after hread =>
        obtain ⟨fs, -, hpassBracket, -⟩ := Cursor.bracket?_eq_some_iff.mp hread
        exact (Cursor.shows_of_label? hlabel number hmem).of_passes
          (hpass.trans (hskip.trans hpassBracket))
    · exact (Cursor.shows_of_label? hlabel number hmem).of_passes hpass

theorem reaches_insertPoint {c : Cursor} {p : Placement} (h : Columns c p) : c.Reaches p.insertPoint := by
  unfold insertPoint
  split
  · next bracket hbracket => exact (h.coordinates bracket hbracket).1
  · exact h.name_stop

end Placement

/-! ### Evolved components -/

namespace Evolution

/-- Where the first of two names stands, and what is left of the line behind it. -/
structure Head.Columns (c : Cursor) (head : Head) : Prop where
  name_start : c.col ≤ head.name.span.start
  name_le : head.name.span.start ≤ head.name.span.stop
  name_stop : c.Reaches head.name.span.stop
  name_eq_nil : head.name.span.stop = c.col → head.name.value = []
  rest : ∃ passed, c.Passes passed head.rest
  stop_le : head.name.span.stop ≤ head.rest.col
  maturity : ∀ number ∈ head.maturity, c.Shows number

/-- A bare name lies in what has been passed. -/
theorem Head.columns_bareName {c rest : Cursor} {passed : Text} {maturity : Option Number}
    (hpass : c.Passes passed rest) (hmaturity : ∀ number ∈ maturity, c.Shows number) :
    Head.Columns c ⟨c.bareName rest.col, maturity, rest⟩ := by
  obtain ⟨before, name, after, htext, htrims, hname⟩ := Cursor.exists_bareName c rest.col
  have hpassed : passed = (before ++ name) ++ after := by
    rw [← htext, hpass.col, Nat.add_sub_cancel_left, hpass.rest, List.take_left]
  have hrest : c.rest = (before ++ name) ++ (after ++ rest.rest) := by
    rw [hpass.rest, hpassed, List.append_assoc]
  refine ⟨?_, ?_, ⟨before ++ name, ⟨_, after ++ rest.rest⟩, ⟨hrest, rfl⟩, ?_⟩, ?_, ⟨passed, hpass⟩,
    ?_, hmaturity⟩
  · rw [hname]
    exact Nat.le_add_right _ _
  · rw [hname]
    exact Nat.le_add_right _ _
  · rw [hname]
    simp only [List.length_append, Nat.add_assoc]
  · intro hstop
    simp only [hname] at hstop ⊢
    exact List.length_eq_zero_iff.mp (by omega)
  · rw [hname, hpass.col, hpassed]
    simp only [List.length_append]
    omega

theorem Head.columns_bare (c : Cursor) : Head.Columns c (Head.bare c) := by
  unfold Head.bare
  split
  · next number hnumber =>
      have hshows := Cursor.shows_of_lastNumber? hnumber
      obtain ⟨⟨passed, hpass⟩, hcol⟩ := hshows.reaches_start.passes_seek
      have := @columns_bareName _ _ _ (some number) hpass (by simpa using hshows)
      rwa [hcol] at this
  · have hpass : c.Passes c.rest ⟨c.lineEnd, []⟩ := ⟨(List.append_nil _).symm, rfl⟩
    have hseek := hpass.seek_eq
    dsimp only at hseek
    rw [hseek]
    exact columns_bareName hpass (by simp)

theorem Head.columns_quoted {c : Cursor} {token : NameToken} (h : c.quotedName? = some token) :
    Head.Columns c ⟨token, none, c.seek token.span.stop⟩ := by
  obtain ⟨q, rest, hquoted, hrest, rfl⟩ := Cursor.quotedName?_eq_some_iff.mp h
  have hpass : c.Passes q ⟨c.col + q.length, rest⟩ := ⟨hrest, rfl⟩
  have hseek := hpass.seek_eq
  dsimp only at hseek
  have hpos : q ≠ [] := by
    rintro rfl
    have := hquoted.head?
    simp at this
  dsimp only
  rw [hseek]
  refine ⟨Nat.le_refl _, Nat.le_add_right _ _, hpass.reaches, fun hstop => ?_, ⟨q, hpass⟩, Nat.le_refl _, by simp⟩
  exact absurd (List.length_eq_zero_iff.mp (Nat.add_eq_left.mp hstop)) hpos

theorem Head.columns_ofCursor (c : Cursor) : Head.Columns c (Head.ofCursor c) := by
  unfold Head.ofCursor
  split
  · next hquoted => exact columns_quoted hquoted
  · split
    · next i hfind =>
        obtain ⟨upToArrow, rest, hrest, hi, -⟩ := Name.exists_noArrow hfind
        have hpass : c.Passes upToArrow (c.advance i) := by
          rw [hi]
          exact ⟨by simp [Cursor.advance, hrest], rfl⟩
        exact columns_bareName hpass (by simp)
    · exact columns_bare c

theorem Head.columns_ofOverride (c : Cursor) : Head.Columns c (Head.ofOverride c) := by
  unfold Head.ofOverride
  split
  · next hquoted => exact columns_quoted hquoted
  · have h := columns_bare c
    obtain ⟨hseek, hcol⟩ := h.name_stop.passes_seek
    exact ⟨h.name_start, h.name_le, h.name_stop, h.name_eq_nil, hseek, hcol.ge, h.maturity⟩

theorem shows_of_maturityAt {c : Cursor} {number : Number} (h : maturityAt c = some number) :
    c.Shows number := by
  unfold maturityAt at h
  split at h
  · next found after hnumber =>
      split at h
      · obtain rfl := Option.some.inj h
        exact (Cursor.shows_of_number? hnumber).of_passes (Cursor.passes_skipSpaces c)
      · simp at h
  · simp at h

/-- Where the parts of an `evolve` statement stand. An arrow separates the second name from the first. -/
structure Columns (c : Cursor) (e : Evolution) : Prop where
  name_stop : c.Reaches e.name.span.stop
  name_eq_nil : e.name.span.stop = c.col → e.name.value = []
  override : ∀ clause ∈ e.override, c.col < clause.name.span.start ∧
    c.Reaches clause.name.span.stop ∧ clause.name.span.start ≤ clause.name.span.stop
  maturity : ∀ number ∈ e.maturity, c.Shows number

/-- Wherever the reader looks for a part of an `evolve` statement is a column of the line. -/
theorem columns_ofBody (c : Cursor) (label : Option LabelClause) : Columns c (ofBody c label) := by
  have hbase := Head.columns_ofCursor c
  obtain ⟨passed, hpass⟩ := hbase.rest
  unfold ofBody
  dsimp only
  split
  · next number hmaturity =>
      refine ⟨hbase.name_stop, hbase.name_eq_nil, by simp, ?_⟩
      rw [← hmaturity]
      exact hbase.maturity
  · split
    · refine ⟨hbase.name_stop, hbase.name_eq_nil, by simp, fun number hnumber => ?_⟩
      exact (shows_of_maturityAt hnumber).of_passes hpass
    · next behind harrow =>
        have hpassArrow := Cursor.acceptText?_eq_some_iff.mp harrow
        have hpassBehind := hpass.trans ((Cursor.passes_skipSpaces _).trans
          (hpassArrow.trans (Cursor.passes_skipSpaces behind)))
        have hover := Head.columns_ofOverride behind.skipSpaces
        obtain ⟨passed', hpass'⟩ := hover.rest
        refine ⟨hbase.name_stop, hbase.name_eq_nil, fun clause hclause => ?_, fun number hnumber => ?_⟩
        · obtain rfl := Option.some.inj hclause
          refine ⟨Nat.lt_of_lt_of_le ?_ hover.name_start, hover.name_stop.of_passes hpassBehind,
            hover.name_le⟩
          rw [hpassBehind.col]
          simp only [List.length_append, Name.arrow, List.length_cons]
          omega
        · dsimp only at hnumber
          cases hmaturity : (Head.ofOverride behind.skipSpaces).maturity with
          | some found =>
              rw [hmaturity] at hnumber
              obtain rfl : found = number := by simpa using hnumber
              exact (hover.maturity found hmaturity).of_passes hpassBehind
          | none =>
              rw [hmaturity] at hnumber
              have hnumber : maturityAt (Head.ofOverride behind.skipSpaces).rest = some number := by
                simpa using hnumber
              exact ((shows_of_maturityAt hnumber).of_passes hpass').of_passes hpassBehind

theorem Columns.of_clip {c : Cursor} {stop : Nat} {e : Evolution} (h : Columns (c.clip stop) e) :
    Columns c e := by
  refine ⟨h.name_stop.of_clip, h.name_eq_nil, fun clause hclause => ?_,
    fun number hnumber => (h.maturity number hnumber).of_clip⟩
  obtain ⟨hstart, hstop, hle⟩ := h.override clause hclause
  exact ⟨hstart, hstop.of_clip, hle⟩

theorem columns_ofCursor (c : Cursor) : Columns c (ofCursor c) := by
  unfold ofCursor
  dsimp only
  split
  · exact (columns_ofBody _ _).of_clip
  · exact columns_ofBody c _

theorem reaches_insertPoint {c : Cursor} {e : Evolution} (h : Columns c e) : c.Reaches e.insertPoint := by
  unfold insertPoint
  split
  · next number hnumber => exact (h.maturity number hnumber).reaches_stop
  · next clause _ hclause => exact (h.override clause hclause).2.1
  · exact h.name_stop

theorem label_ofCursor (c : Cursor) : (ofCursor c).label = c.label? := by
  unfold ofCursor ofBody
  dsimp only
  split
  · rfl
  · split <;> rfl

end Evolution

end WardleyMap
