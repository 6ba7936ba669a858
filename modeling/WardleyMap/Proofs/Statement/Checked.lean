import WardleyMap.Proofs.Statement.Bytes

/-!
# Cuts stay in the line

A reader that passes what it has matched cannot leave the line. It could where it cuts the line at a column
that was found by another search: at the end of a name, at the last number, in front of the label. Here are
the readers again with a check at every such cut, which fails if the column lies before the cursor or
behind the end. They never fail, and read what the readers read (`Checked.statement_eq`). A cut that passes the
check is one that the host can make: in bytes too, the line can be sliced between the cursor and the column
(`Checked.ofBytes?_of_cut`).
-/

namespace WardleyMap

namespace Checked

/-- The result of a cut at column `col`, if that lies between the cursor and the end of its text. -/
def cut {α : Type} (c : Cursor) (col : Nat) (result : α) : Option α :=
  if c.col ≤ col ∧ col ≤ c.lineEnd then some result else none

def lastNumber (c : Cursor) : Option (Option Number) :=
  if c.tokens.all fun t => c.col ≤ t.span.start && t.span.stop ≤ c.lineEnd then some c.lastNumber?
  else none

def name (c : Cursor) : Option NameToken :=
  match c.quotedName? with
  | some name => cut c name.span.stop name
  | none =>
    let stop := c.col + (c.rest.takeWhile (· != '[')).length
    cut c stop (c.bareName stop)

def placement (kind : Kind) (c : Cursor) : Option Placement := do
  let name ← name c
  let afterName ← cut c name.span.stop (c.seek name.span.stop)
  let coordinates := afterName.skipSpaces.bracket? 2
  let rest := match coordinates with
    | some (_, c) => c
    | none => afterName
  return ⟨kind, name, coordinates.map Prod.fst, rest.label?⟩

def bare (c : Cursor) : Option Evolution.Head :=
  (lastNumber c).bind fun
    | some number =>
      cut c number.span.start
        ⟨c.bareName number.span.start, some number, c.seek number.span.start⟩
    | none => cut c c.lineEnd ⟨c.bareName c.lineEnd, none, c.seek c.lineEnd⟩

def head (c : Cursor) : Option Evolution.Head :=
  match c.quotedName? with
  | some name => cut c name.span.stop ⟨name, none, c.seek name.span.stop⟩
  | none =>
    match Text.find? c.rest Name.arrow with
    | some i => cut c (c.col + i) ⟨c.bareName (c.col + i), none, c.advance i⟩
    | none => bare c

def override (c : Cursor) : Option Evolution.Head :=
  match c.quotedName? with
  | some name => cut c name.span.stop ⟨name, none, c.seek name.span.stop⟩
  | none => do
    let head ← bare c
    cut c head.name.span.stop { head with rest := c.seek head.name.span.stop }

def body (c : Cursor) (label : Option LabelClause) : Option Evolution := do
  let base ← head c
  match base.maturity with
  | some number => return ⟨base.name, none, some number, label⟩
  | none =>
    let arrow := base.rest.skipSpaces
    match arrow.acceptText? Name.arrow with
    | none => return ⟨base.name, none, Evolution.maturityAt base.rest, label⟩
    | some c =>
      let head ← override c.skipSpaces
      return ⟨base.name, some ⟨⟨arrow.col, c.col⟩, head.name⟩,
        head.maturity <|> Evolution.maturityAt head.rest, label⟩

def evolution (c : Cursor) : Option Evolution := do
  let label := c.label?
  let c ← match label with
    | some clause => cut c clause.span.start (c.clip clause.span.start)
    | none => some c
  body c label

def remark (c : Cursor) : Option (Option Annotation) :=
  match c.number? with
  | none => some none
  | some (number, c) =>
    match Annotation.points? c.skipSpaces with
    | none => some (some ⟨number, none, none⟩)
    | some span => do
      let behind ← cut c span.stop (c.seek span.stop)
      let text ← cut behind (behind.col + Text.indent behind.rest) <| Annotation.textAt behind
      return some ⟨number, some span, text⟩

/-- Reads the line as a statement, if no cut fails. -/
def statement (kind : Kind) (line : Text) : Option (Option Statement) :=
  match kind.open? line with
  | none => some none
  | some c =>
    match kind with
    | .component | .note | .anchor | .pipeline =>
      (placement kind c.skipSpaces).map fun p => some (.placement p)
    | .evolve => (evolution c.skipSpaces).map fun e => some (.evolution e)
    | .pioneers | .settlers | .townPlanners =>
      some (some (.region ⟨kind, c.col, (c.skipSpaces.bracket? 4).map Prod.fst⟩))
    | Kind.annotation =>
      (remark c.skipSpaces).map fun found => found.map Statement.annotation

variable {c : Cursor} {col : Nat}

theorem cut_eq {α : Type} (h : c.Reaches col) (result : α) : cut c col result = some result :=
  if_pos ⟨h.le, h.le_lineEnd⟩

/-- The host can slice the line where a cut is made. -/
theorem ofBytes?_of_cut {α : Type} {result found : α} {line before : Text}
    (hbefore : (Cursor.ofLine line).Passes before c) (h : cut c col result = some found) :
    Span.ofBytes? line (line.byteOffset c.col) (line.byteOffset col) = some ⟨c.col, col⟩ := by
  have hwithin : c.col ≤ col ∧ col ≤ c.lineEnd := by
    by_contra hnot
    rw [cut, if_neg hnot] at h
    exact absurd h (by simp)
  obtain ⟨text, c', hpass, rfl⟩ := c.reaches_lineEnd.of_le hwithin.1 hwithin.2
  exact hbefore.ofBytes?_eq hpass

/-- Tokens lie in the text that they are read from, so cutting them out cannot fail. -/
theorem token_within {t : Token} (h : t ∈ c.tokens) :
    c.col ≤ t.span.start ∧ t.span.stop ≤ c.lineEnd := by
  obtain ⟨col, s⟩ := c
  induction s using Text.tokenInduction generalizing col with
  | nil => simp [Cursor.tokens, Token.scan] at h
  | blank ch s hch ih =>
      rw [Cursor.tokens_blank hch] at h
      obtain ⟨hstart, hstop⟩ := ih _ h
      have hpass := Cursor.Passes.mk_append col [ch] s
      exact ⟨hpass.col_le.trans hstart, hstop.trans hpass.lineEnd.le⟩
  | token token rest htoken ih =>
      have hpass := Cursor.Passes.mk_append col token rest
      rw [Cursor.tokens_token htoken] at h
      rcases List.mem_cons.mp h with rfl | h
      · exact ⟨Nat.le_refl _, hpass.reaches.le_lineEnd⟩
      · obtain ⟨hstart, hstop⟩ := ih _ h
        exact ⟨hpass.col_le.trans hstart, hstop.trans hpass.lineEnd.le⟩

theorem lastNumber_eq (c : Cursor) : lastNumber c = some c.lastNumber? := by
  refine if_pos (List.all_eq_true.mpr fun t ht => ?_)
  obtain ⟨hstart, hstop⟩ := token_within ht
  simp [hstart, hstop]

theorem name_eq (c : Cursor) : name c = some (Placement.nameAt c) := by
  have hstop := (Placement.columns_ofCursor .component c).name_stop
  change c.Reaches (Placement.nameAt c).span.stop at hstop
  unfold name Placement.nameAt at *
  cases hquoted : c.quotedName? with
  | some token =>
      rw [hquoted] at hstop
      exact cut_eq hstop _
  | none =>
      refine cut_eq (c.reaches_lineEnd.of_le (Nat.le_add_right _ _) ?_) _
      exact Nat.add_le_add_left (List.takeWhile_prefix _).length_le _

theorem placement_eq (kind : Kind) (c : Cursor) :
    placement kind c = some (Placement.ofCursor kind c) := by
  have hstop := (Placement.columns_ofCursor kind c).name_stop
  change c.Reaches (Placement.nameAt c).span.stop at hstop
  simp only [placement, name_eq, cut_eq hstop, Option.bind_eq_bind, Option.bind_some]
  rfl

theorem bare_eq (c : Cursor) : bare c = some (Evolution.Head.bare c) := by
  unfold bare Evolution.Head.bare
  rw [lastNumber_eq, Option.bind_some]
  cases hnumber : c.lastNumber? with
  | some number => exact cut_eq (Cursor.shows_of_lastNumber? hnumber).reaches_start _
  | none => exact cut_eq c.reaches_lineEnd _

theorem quoted_eq {token : NameToken} (h : c.quotedName? = some token) :
    cut c token.span.stop (⟨token, none, c.seek token.span.stop⟩ : Evolution.Head)
      = some ⟨token, none, c.seek token.span.stop⟩ :=
  cut_eq (Evolution.Head.columns_quoted h).name_stop _

/-- Reading the first name cuts the line within its bounds only. -/
theorem head_eq (c : Cursor) : head c = some (Evolution.Head.ofCursor c) := by
  unfold head Evolution.Head.ofCursor
  cases hquoted : c.quotedName? with
  | some token => exact quoted_eq hquoted
  | none =>
      dsimp only
      cases hfind : Text.find? c.rest Name.arrow with
      | some i =>
          obtain ⟨upToArrow, rest, hrest, rfl, -⟩ := Name.exists_noArrow hfind
          have hpass : c.Passes upToArrow ⟨c.col + upToArrow.length, Name.arrow ++ rest⟩ :=
            ⟨hrest, rfl⟩
          exact cut_eq hpass.reaches _
      | none => exact bare_eq c

theorem override_eq (c : Cursor) : override c = some (Evolution.Head.ofOverride c) := by
  unfold override Evolution.Head.ofOverride
  cases hquoted : c.quotedName? with
  | some token => exact quoted_eq hquoted
  | none =>
      dsimp only
      rw [bare_eq]
      exact cut_eq (Evolution.Head.columns_bare c).name_stop _

theorem body_eq (c : Cursor) (label : Option LabelClause) :
    body c label = some (Evolution.ofBody c label) := by
  unfold body Evolution.ofBody
  simp only [head_eq, override_eq, Option.bind_eq_bind, Option.bind_some]
  cases (Evolution.Head.ofCursor c).maturity with
  | some number => rfl
  | none =>
      dsimp only
      cases (Evolution.Head.ofCursor c).rest.skipSpaces.acceptText? Name.arrow with
      | some behind => rfl
      | none => rfl

theorem evolution_eq (c : Cursor) : evolution c = some (Evolution.ofCursor c) := by
  unfold evolution Evolution.ofCursor
  cases hlabel : c.label? with
  | none => exact body_eq c none
  | some clause =>
      have hstart : c.Reaches clause.span.start := by
        obtain ⟨hstart, hspan, hstop⟩ := (Cursor.inOrder_label hlabel).1
        exact c.reaches_lineEnd.of_le hstart (hspan.trans hstop)
      simp only [cut_eq hstart, Option.bind_eq_bind, Option.bind_some]
      exact body_eq _ _

/-- Reading the text behind the points cuts the line within its bounds only. -/
theorem remark_eq (c : Cursor) : remark c = some ( Annotation.ofCursor? c) := by
  unfold remark Annotation.ofCursor?
  cases c.number? with
  | none => rfl
  | some found =>
      obtain ⟨number, after⟩ := found
      dsimp only
      cases hpoints : Annotation.points? after.skipSpaces with
      | none => simp [hpoints]
      | some span =>
          obtain ⟨passed, behind, hpass, -, rfl⟩ := Annotation.exists_passes_points? hpoints
          have hbehind := (Cursor.passes_skipSpaces after).trans hpass
          have hindent : behind.Reaches (behind.col + Text.indent behind.rest) := by
            refine behind.reaches_lineEnd.of_le (Nat.le_add_right _ _) ?_
            exact Nat.add_le_add_left (List.takeWhile_prefix isBlank).length_le _
          simp only [cut_eq hbehind.reaches, hbehind.seek_eq, cut_eq hindent, Option.bind_eq_bind,
            Option.bind_some]
          simp [hpoints, hbehind.seek_eq]

/-- No cut fails, whatever the line holds. -/
theorem statement_eq (kind : Kind) (line : Text) :
    statement kind line = some (Statement.ofLine? kind line) := by
  unfold statement
  cases hopen : kind.open? line with
  | none =>
      cases kind <;>
        simp [Statement.ofLine?, Placement.ofLine?, Evolution.ofLine?, Region.ofLine?,
          Annotation.ofLine?, hopen]
  | some c =>
      cases kind <;>
        simp [Statement.ofLine?, Placement.ofLine?, Evolution.ofLine?, Region.ofLine?,
          Annotation.ofLine?, hopen, placement_eq, evolution_eq, remark_eq]

end Checked

end WardleyMap
