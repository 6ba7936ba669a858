import WardleyMap.Proofs.Edit.Rewrite
import WardleyMap.Proofs.Geometry.Order

/-!
# Writing back what is read

A statement shows a value for each of its parts, and the edit that writes this very value leaves the
document as it is, in whatever spacing and with however many digits the value stands on the line. Some
edits bring a value into a form first: they put the ends of a range and the corners of a region in
order, they fold a text, and they take an override away that is blank or repeats the name. There it is
asked that the value has this form, numbers again being compared as they are printed.
-/

namespace WardleyMap

/-! ### What a statement shows -/

namespace Statement

def values? (clause : Clause) (statement : Statement) : Option (List Float) :=
  (statement.numbers? clause).map (·.map Number.value)

def override? : Statement → Option Text
  | evolution e => e.override.map (·.name.value)
  | _ => none

def maturity? : Statement → Option Float
  | evolution e => e.maturity.map Number.value
  | _ => none

def text? (line : Text) : Statement → Option Text
  | annotation a => a.text.map (·.slice line)
  | _ => none

end Statement

namespace Edit

/-- The edit writes what the statement on the line `line` shows already. The name that it expects there does
not matter. -/
def Restates (line : Text) (statement : Statement) : Edit → Prop
  | rename _ _ newName => statement.name?.map NameToken.value = some newName
  | setOverride _ newName => statement.override? = some newName
  | move _ _ position =>
    statement.values? .coordinates = some [position.visibility, position.maturity]
  | moveEvolution _ maturity => statement.maturity? = some maturity
  | setRange _ start stop => statement.values? .coordinates = some [start, stop]
  | setLabel _ _ offset => statement.values? .label = some [offset.dx, offset.dy]
  | resize _ first second => statement.values? .coordinates
    = some [first.visibility, first.maturity, second.visibility, second.maturity]
  | setText newText => statement.text? line = some newText

/-- The edit would write its values as they are. The label of a placement is written behind coordinates
only. -/
def InForm (precision : Nat) (statement : Statement) : Edit → Prop
  | setOverride _ newName =>
    newName.isAllBlank = false ∧ statement.name?.map NameToken.value ≠ some newName
  | setRange _ start stop => start ≤ stop ∨ Decimal.agreesAt precision start stop = true
  | setLabel kind _ _ =>
    kind.isPlacement = true → (statement.numbers? .coordinates).isSome = true
  | resize _ first second =>
    (second.visibility < first.visibility ∨
      Decimal.agreesAt precision first.visibility second.visibility = true) ∧
    (first.maturity < second.maturity ∨
      Decimal.agreesAt precision first.maturity second.maturity = true)
  | setText newText => newText.fold = newText
  | rename _ _ _ | move _ _ _ | moveEvolution _ _ => True

instance (line : Text) (statement : Statement) (edit : Edit) :
    Decidable (edit.Restates line statement) :=
  match edit with
  | rename _ _ _ | setOverride _ _ | move _ _ _ | moveEvolution _ _ | setRange _ _ _
  | setLabel _ _ _ | resize _ _ _ | setText _ => inferInstanceAs (Decidable (_ = _))

instance (precision : Nat) (statement : Statement) (edit : Edit) :
    Decidable (edit.InForm precision statement) :=
  match edit with
  | setOverride _ _ | resize _ _ _ => inferInstanceAs (Decidable (_ ∧ _))
  | setRange _ _ _ => inferInstanceAs (Decidable (_ ∨ _))
  | setLabel _ _ _ => inferInstanceAs (Decidable (_ → _))
  | setText _ => inferInstanceAs (Decidable (_ = _))
  | rename _ _ _ | move _ _ _ | moveEvolution _ _ => inferInstanceAs (Decidable True)

end Edit

/-! ### Numbers that print alike -/

namespace Decimal

variable {precision : Nat} {a b : Float}

@[simp]
theorem agreesAt_self (precision : Nat) (x : Float) : agreesAt precision x x = true :=
  beq_self_eq_true _

theorem agreesAt_comm : agreesAt precision a b = true ↔ agreesAt precision b a = true := by
  rw [agreesAt, agreesAt, beq_iff_eq, beq_iff_eq, eq_comm]

/-- Whichever of two numbers is picked, it prints like both of them if they print alike. -/
theorem agreesAt_pick {x : Float} (h : agreesAt precision a b = true) (hx : x = a ∨ x = b) :
    agreesAt precision a x = true ∧ agreesAt precision b x = true := by
  rcases hx with rfl | rfl
  · exact ⟨agreesAt_self precision x, agreesAt_comm.mp h⟩
  · exact ⟨h, agreesAt_self precision x⟩

theorem agreesAt_greater_lesser (h : b < a ∨ agreesAt precision a b = true) :
    agreesAt precision a (greater a b) = true ∧ agreesAt precision b (lesser a b) = true := by
  rcases h with h | h
  · simp [greater_of_gt h, lesser_of_gt h]
  · exact ⟨(agreesAt_pick h (greater_eq_or a b)).1, (agreesAt_pick h (lesser_eq_or a b)).2⟩

theorem agreesAt_lesser_greater (h : a < b ∨ agreesAt precision a b = true) :
    agreesAt precision a (lesser a b) = true ∧ agreesAt precision b (greater a b) = true := by
  rcases h with h | h
  · simp [greater_of_lt h, lesser_of_lt h]
  · exact ⟨(agreesAt_pick h (lesser_eq_or a b)).1, (agreesAt_pick h (greater_eq_or a b)).2⟩

end Decimal

namespace Statement

variable {precision : Nat} {statement : Statement} {clause : Clause} {values : List Float}

/-- Values that print like the ones a clause shows are not written again. -/
theorem write_eq_nil {shown : List Float} (h : statement.values? clause = some shown)
    (hagree : List.Forall₂ (Decimal.agreesAt precision · · = true) shown values) :
    statement.write clause precision values = [] := by
  obtain ⟨numbers, hnumbers, rfl⟩ := Option.map_eq_some_iff.mp h
  rw [write, hnumbers]
  exact Field.writeNumbers_of_agree (List.forall₂_map_left_iff.mp hagree)

theorem write_self (precision : Nat) (h : statement.values? clause = some values) :
    statement.write clause precision values = [] :=
  write_eq_nil h (List.forall₂_same.mpr fun x _ => Decimal.agreesAt_self precision x)

end Statement

/-! ### Plans that have nothing to replace -/

theorem Text.isAllBlank_of_drop_indent {s : Text} (h : s.drop s.indent = []) : s.isAllBlank = true := by
  refine isAllBlank_iff.mpr fun ch hch => ?_
  rw [← List.take_append_drop s.indent s, h, List.append_nil, indent,
    ← List.prefix_iff_eq_take.mp (List.takeWhile_prefix isBlank)] at hch
  exact List.mem_takeWhile_imp hch

theorem Cursor.slice_lineEnd {line passed : Text} {c : Cursor} (h : (ofLine line).Passes passed c)
    (n : Nat) : Span.slice ⟨c.col + n, c.lineEnd⟩ line = c.rest.drop n := by
  obtain ⟨hline, hcol⟩ := passes_ofLine_iff.mp h
  rw [Span.slice, lineEnd, hcol, hline, ← List.length_append, List.take_length, List.drop_append,
    List.drop_eq_nil_of_le (Nat.le_add_right _ _), List.nil_append, Nat.add_sub_cancel_left]

/-- An annotation with a text has points, and its text is not empty. -/
theorem Annotation.exists_text {line : Text} {a : Annotation} {span : Span} (h : ofLine? line = some a)
    (htext : a.text = some span) :
    ∃ points, a.coordinates = some points ∧ span.slice line ≠ [] := by
  have hsome : a.coordinates.isSome = true := by
    obtain ⟨c, -, h⟩ := Option.bind_eq_some_iff.mp h
    obtain ⟨⟨number, c₁⟩, -, rfl⟩ := Option.map_eq_some_iff.mp h
    obtain ⟨points, hpoints, -⟩ := Option.bind_eq_some_iff.mp htext
    exact Option.isSome_of_eq_some hpoints
  obtain ⟨points, hpoints⟩ := Option.isSome_iff_exists.mp hsome
  obtain ⟨passed, c', hpass, -, -, heq⟩ := exists_passes_coordinates h hpoints
  rw [heq, textAt, Option.ite_none_left_eq_some] at htext
  obtain ⟨hblank, rfl⟩ := htext.imp_right Option.some.inj
  refine ⟨points, hpoints, ?_⟩
  rw [Cursor.slice_lineEnd hpass]
  exact mt Text.isAllBlank_of_drop_indent hblank

namespace Edit

variable {precision : Nat} {line : Text} {statement : Statement} {e : Edit}

theorem setOverride_plan {e : Evolution} {newName : Text} (h : e.override.map (·.name.value) = some newName)
    (hblank : newName.isAllBlank = false) (hne : e.name.value ≠ newName) : e.setOverride newName = [] := by
  obtain ⟨override, hoverride, rfl⟩ := Option.map_eq_some_iff.mp h
  rw [Evolution.setOverride, hoverride]
  simp [hblank, hne]

theorem setMaturity_plan {e : Evolution} {maturity : Float} (h : e.maturity.map Number.value = some maturity) :
    e.setMaturity precision maturity = [] := by
  obtain ⟨number, hnumber, rfl⟩ := Option.map_eq_some_iff.mp h
  have hagree := Decimal.agreesAt_self precision number.value
  rw [Evolution.setMaturity, hnumber]
  exact Field.writeNumbers_of_agree (.cons hagree .nil)

theorem setRange_plan {p : Placement} {start stop : Float}
    (h : (Statement.placement p).values? .coordinates = some [start, stop])
    (hform : start ≤ stop ∨ Decimal.agreesAt precision start stop = true) :
    (if start ≤ stop then p.setCoordinates precision start stop
      else p.setCoordinates precision stop start) = [] := by
  simp only [Placement.setCoordinates_eq_write]
  split
  · exact Statement.write_self precision h
  · next horder =>
      have halike := hform.resolve_left horder
      exact Statement.write_eq_nil h (.cons halike (.cons (Decimal.agreesAt_comm.mp halike) .nil))

theorem resize_plan {r : Region} {kind : Kind} {first second : Position}
    (h : (Statement.region r).values? .coordinates
      = some [first.visibility, first.maturity, second.visibility, second.maturity])
    (hform : (resize kind first second).InForm precision (.region r)) :
    r.setEdges precision (greater first.visibility second.visibility)
      (lesser first.maturity second.maturity) (lesser first.visibility second.visibility)
      (greater first.maturity second.maturity) = [] := by
  obtain ⟨htop, hbottom⟩ := Decimal.agreesAt_greater_lesser hform.1
  obtain ⟨hleft, hright⟩ := Decimal.agreesAt_lesser_greater hform.2
  rw [Region.setEdges_eq_write]
  exact Statement.write_eq_nil h (.cons htop (.cons hleft (.cons hbottom (.cons hright .nil))))

theorem setText_plan {a : Annotation} {newText : Text} (ha : Annotation.ofLine? line = some a)
    (h : a.text.map (·.slice line) = some newText) (hform : newText.fold = newText) :
    a.setText? line newText = some [] := by
  obtain ⟨span, htext, rfl⟩ := Option.map_eq_some_iff.mp h
  obtain ⟨points, hpoints, hne⟩ := Annotation.exists_text ha htext
  obtain ⟨ch, rest, hslice⟩ := List.exists_cons_of_ne_nil hne
  unfold Annotation.setText?
  rw [hpoints, Option.map_some, htext, hform]
  simp [hslice]

/-- An edit that restates plans no replacement, which is why the document stays the same. -/
theorem plan?_of_restates (hstatement : Statement.ofLine? e.kind line = some statement)
    (h : e.Restates line statement) (hform : e.InForm precision statement) :
    e.plan? precision line statement = some [] := by
  have hkind := Statement.kind_of_ofLine? hstatement
  cases e with
  | rename kind name newName =>
      cases statement with
      | placement p =>
          change some (p.rename newName) = _
          rw [Placement.rename, if_pos (.inr (Option.some.inj h))]
      | evolution | region | annotation => rfl
  | setOverride name newName =>
      cases statement with
      | evolution e => exact congrArg some (setOverride_plan h hform.1 (mt (congrArg some) hform.2))
      | placement | region | annotation => rfl
  | move kind name position =>
      cases statement with
      | placement p =>
          change some (p.setCoordinates precision position.visibility position.maturity) = _
          rw [Placement.setCoordinates_eq_write, Statement.write_self precision h]
      | evolution | region | annotation => rfl
  | moveEvolution name maturity =>
      cases statement with
      | evolution e => exact congrArg some (setMaturity_plan h)
      | placement | region | annotation => rfl
  | setRange name start stop =>
      cases statement with
      | placement p => exact congrArg some (setRange_plan h hform)
      | evolution | region | annotation => rfl
  | setLabel kind name offset =>
      cases statement with
      | placement p =>
          have hcoordinates := hform hkind
          rw [Statement.numbers?, Option.isSome_map] at hcoordinates
          change p.setLabel? precision offset.dx offset.dy = _
          rw [Placement.setLabel?_eq_write, if_pos hcoordinates, Statement.write_self precision h]
      | evolution e =>
          change some (e.setLabel precision offset.dx offset.dy) = _
          rw [Evolution.setLabel_eq_write, Statement.write_self precision h]
      | region | annotation => rfl
  | resize kind first second =>
      cases statement with
      | region r => exact congrArg some (resize_plan h hform)
      | placement | evolution | annotation => rfl
  | setText newText =>
      cases statement with
      | annotation a =>
          obtain ⟨a, ha, heq⟩ := Option.map_eq_some_iff.mp hstatement
          obtain rfl := Statement.annotation.inj heq
          exact setText_plan ha h hform
      | placement | evolution | region => rfl

end Edit

namespace Document

variable {doc : Document} {config : Config} {n : Nat} {line : Text} {statement : Statement} {e : Edit}

/-- An edit that writes what is read on its line already leaves the document as it is, as long as it does
not bring the values into another form. -/
theorem edit_restating (hline : doc.line? n = some line) (hsupported : e.unsupported? = none)
    (hstatement : Statement.ofLine? e.kind line = some statement)
    (hrestates : e.Restates line statement) (hform : e.InForm config.precision statement) :
    doc.edit config n e = .ok doc :=
  edit_eq_self hsupported hline hstatement (Edit.plan?_of_restates hstatement hrestates hform)
    (Replacement.applyAll_nil line)

theorem edit_restating_region :
    let line : Text := "settlers  [0.8,0.123456 ,  0.2, .5] x".toList
    let doc : Document := ⟨[line]⟩
    let e : Edit := .resize .settlers ⟨0.123456, 0.8⟩ ⟨0.5, 0.2⟩
    doc.line? 1 = some line ∧ e.unsupported? = none ∧ (∃ statement,
      Statement.ofLine? e.kind line = some statement ∧ e.Restates line statement ∧
      e.InForm 2 statement) ∧ doc.edit {} 1 e = .ok doc := by
  intro line doc e
  have hshown : ∃ statement ∈ Statement.ofLine? e.kind line,
      e.Restates line statement ∧ e.InForm 2 statement := by
    decide +kernel
  obtain ⟨statement, hstatement, hrestates, hform⟩ := hshown
  exact ⟨rfl, rfl, ⟨statement, hstatement, hrestates, hform⟩,
    @edit_restating doc {} 1 line statement e rfl rfl hstatement hrestates hform⟩

/-- A range out of order, corners out of order, an override that repeats the name or is blank, and a text
with two spaces in a row are written in another form. A label without coordinates before it is read, but
it is not written. -/
theorem edit_restating_out_of_form :
    let Restated (line : String) (e : Edit) (result : Except EditError Document) : Prop :=
      (∃ statement ∈ Statement.ofLine? e.kind line.toList, e.Restates line.toList statement) ∧
        (⟨[line.toList]⟩ : Document).edit {} 1 e = result ∧ result ≠ .ok ⟨[line.toList]⟩
    Restated "pipeline A [0.65, 0.15]" (.setRange ['A'] 0.65 0.15)
      (.ok ⟨["pipeline A [0.15, 0.65]".toList]⟩) ∧
    Restated "pioneers [0.2, 0.1, 0.8, 0.5]" (.resize .pioneers ⟨0.1, 0.2⟩ ⟨0.5, 0.8⟩)
      (.ok ⟨["pioneers [0.80, 0.10, 0.20, 0.50]".toList]⟩) ∧
    Restated "evolve A->A 0.9" (.setOverride ['A'] ['A']) (.ok ⟨["evolve A 0.9".toList]⟩) ∧
    Restated "evolve A->\"\" 0.9" (.setOverride ['A'] []) (.ok ⟨["evolve A 0.9".toList]⟩) ∧
    Restated "annotation 1 [0.5, 0.5] two  words" (.setText "two  words".toList)
      (.ok ⟨["annotation 1 [0.5, 0.5] two words".toList]⟩) ∧
    Restated "component \"A\" label [1, 2]" (.setLabel .component ['A'] ⟨1, 2⟩)
      (.error (.noCoordinates 1 .component)) := by
  intro Restated
  refine ⟨?_, ?_, ?_, ?_, ?_, ?_⟩ <;> dsimp only [Restated] <;> decide +kernel

/-- Writing back a range leaves the document as it is exactly if the range is in order or its ends print
alike. -/
theorem edit_range_eq_self_iff {start stop : Float} (hline : doc.line? n = some line)
    (hstatement : Statement.ofLine? .pipeline line = some statement)
    (hvalues : statement.values? .coordinates = some [start, stop])
    (hstart : start.isFinite = true) (hstop : stop.isFinite = true) (name : Text) :
    doc.edit config n (.setRange name start stop) = .ok doc ↔
      start ≤ stop ∨ Decimal.agreesAt config.precision start stop = true := by
  constructor
  · intro h
    refine or_iff_not_imp_left.mpr fun horder => ?_
    obtain ⟨-, line₁, statement₁, rs, hline₁, hstatement₁, hplan, -⟩ := edit_eq_ok_iff.mp h
    obtain rfl := Option.some.inj (hline.symm.trans hline₁)
    obtain rfl := Option.some.inj (hstatement.symm.trans hstatement₁)
    have hrequest : (Edit.setRange name start stop).request? = some (.coordinates, [stop, start]) := by
      rw [Edit.request?, if_neg horder]
    obtain ⟨numbers, hnumbers, hagree⟩ := (edit_eq_self_iff hrequest (by simp [hstart, hstop]) rfl hline
      hstatement hplan).mp h
    rw [Statement.values?, hnumbers, Option.map_some, Option.some.injEq] at hvalues
    have halike : List.Forall₂ (Decimal.agreesAt config.precision · · = true)
        (numbers.map Number.value) [stop, start] := List.forall₂_map_left_iff.mpr hagree
    rw [hvalues] at halike
    exact (List.forall₂_cons.mp halike).1
  · intro hform
    exact edit_eq_self (e := .setRange name start stop) rfl hline hstatement
      (Edit.plan?_of_restates hstatement hvalues hform) (Replacement.applyAll_nil line)

end Document

end WardleyMap
