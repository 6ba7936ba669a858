import WardleyMap.Proofs.Decimal.Order
import WardleyMap.Proofs.Edit.Rewrite
import WardleyMap.Proofs.Geometry.Bounds
import WardleyMap.Proofs.Mutation.Run

/-!
# Resizing a region

A region is given the bounds of a rectangle on the canvas, whose edges may come in either order on each axis. The
order makes no difference: the edges are sorted, and of equal edges nothing is left in what is written but their
number, since a zero is printed without a sign. What is written are four numbers of the unit interval, and since
printing keeps the order and the ends of the interval are printed exactly, the printed numbers are in the interval
too, the top above the bottom and the left before the right (`Mutation.apply_resizeRegion`).
-/

namespace WardleyMap

/-! ### Equal numbers are written alike -/

/-- Equal doubles are printed alike: the sign of a zero is not printed. -/
theorem Decimal.fixed_congr {a b : Float} (h : (a == b) = true) (places : Nat) :
    fixed a places = fixed b places := by
  have hzero : ∀ {x : Float} {sign : Float.Model.UnpackedFloat.Sign}, x.toModel.unpack = .zero sign →
      fixed x places = pointText 0 (min places unitPlaces) (places - min places unitPlaces) := by
    intro x sign hx
    have hunits : Double.ofFloat x = .finite (sign == .negative) 0 := by
      rw [Double.ofFloat_eq, hx]
      rfl
    rw [fixed_finite hunits]
    dsimp only
    rw [scaled_zero, if_neg (by simp)]
  rcases eq_or_zeros_of_beq h with rfl | ⟨sign, sign', ha, hb⟩
  · rfl
  · rw [hzero ha, hzero hb]

def PrintAlike (precision : Nat) (values values' : List Float) : Prop :=
  values.map (Decimal.fixed · precision) = values'.map (Decimal.fixed · precision)

theorem writeNumbers_eq (precision : Nat) (numbers : List Number) (values : List Float) :
    writeNumbers precision numbers values =
      let pairs := numbers.zip (values.map (Decimal.fixed · precision))
      if pairs.all fun (number, text) => Decimal.fixed number.value precision == text then []
      else pairs.map fun (number, text) => ⟨number.span, text⟩ := by
  rw [writeNumbers, List.zip_map_right]
  simp only [List.all_map, List.map_map]
  rfl

theorem PrintAlike.writeBracket_eq {precision : Nat} {values values' : List Float}
    (h : PrintAlike precision values values') (bracket : Option Bracket) (col : Nat) :
    writeBracket precision bracket col values = writeBracket precision bracket col values' := by
  cases bracket with
  | none => rw [writeBracket, writeBracket, bracketText, bracketText, h]
  | some bracket => rw [writeBracket, writeBracket, writeNumbers_eq, writeNumbers_eq, h]

/-- Which of two equal positions a corner has does not show in the text. -/
theorem Edit.plan?_resize_congr {first second first' second' : Position} (hfirst : first.Coincides first')
    (hsecond : second.Coincides second') (kind : Kind) (precision : Nat) (text : Text) (statement : Statement) :
    (Edit.resize kind first second).plan? precision text statement
      = (Edit.resize kind first' second').plan? precision text statement := by
  cases statement with
  | placement | evolution | annotation => rfl
  | region r =>
      refine congrArg some (PrintAlike.writeBracket_eq ?_ _ _)
      simp only [PrintAlike, List.map_cons, List.map_nil]
      rw [Decimal.fixed_congr (greater_congr hfirst.2 hsecond.2),
        Decimal.fixed_congr (lesser_congr hfirst.1 hsecond.1),
        Decimal.fixed_congr (lesser_congr hfirst.2 hsecond.2),
        Decimal.fixed_congr (greater_congr hfirst.1 hsecond.1)]

theorem Document.edit_resize_congr {first second first' second' : Position}
    (hfirst : first.Coincides first') (hsecond : second.Coincides second') (doc : Document) (config : Config)
    (n : Nat) (kind : Kind) :
    doc.edit config n (.resize kind first second) = doc.edit config n (.resize kind first' second') := by
  simp only [edit, Edit.plan?_resize_congr hfirst hsecond]
  rfl

/-- The number that is printed for a number of the map, with so many places. -/
def Number.printed (number : Number) (precision : Nat) : ℚ :=
  Decimal.written (Decimal.fixed number.value precision)

def Outcome.text (before : Text) : Outcome → Text
  | changed text => text
  | unchanged => before

namespace Mutation

variable {element : Element} {bounds : Rect} {viewport : Viewport} {config : Config} {text : Text}

theorem resolve_resizeRegion (h : bounds.isAtLeast config.minRegionSize = true) (doc : Document) :
    (resizeRegion element bounds viewport).resolve doc config = element.ownLine.map
      (·, .resize element.kind (bounds.topLeft viewport) (bounds.bottomRight viewport)) := by
  rw [resolve]
  cases element.ownLine with
  | error refusal => rfl
  | ok line => exact if_pos h

/-- Bounds that are large enough are not refused for their size, whatever the text is. -/
theorem dispatch_resizeRegion_ne (h : bounds.isAtLeast config.minRegionSize = true) (text : Text) :
    ((resizeRegion element bounds viewport).dispatch text config).1 ≠ .error .regionTooSmall := by
  rw [dispatch, apply, applyTo, resolve_resizeRegion h, Element.ownLine]
  cases element.line with
  | none => simp [Except.map]
  | some line =>
      cases hedit : (Document.ofText text).edit config line
          (.resize element.kind (bounds.topLeft viewport) (bounds.bottomRight viewport)) <;>
        simp [Except.map, Except.mapError, hedit]

/-- Rectangles whose upright forms have equal edges are treated alike. -/
theorem apply_resizeRegion_congr {r s : Rect} (hr : r.IsFinite) (h : r.upright.Coincides s.upright)
    (text : Text) : (resizeRegion element r viewport).apply text config
      = (resizeRegion element s viewport).apply text config := by
  have hsize := Rect.isAtLeast_congr hr h config.minRegionSize
  obtain ⟨hfirst, hsecond⟩ := Rect.position_congr hr h viewport
  have hedit := Document.edit_resize_congr hfirst hsecond
  simp only [apply, applyTo, resolve, hsize]
  cases element.ownLine with
  | error refusal => rfl
  | ok line =>
      dsimp only
      by_cases hlarge : s.isAtLeast config.minRegionSize = true
      · rw [if_pos hlarge, if_pos hlarge]
        dsimp only
        rw [hedit]
      · rw [if_neg hlarge, if_neg hlarge]

/-! ### What is written -/

theorem ofText_of_apply {mutation : Mutation} {outcome : Outcome}
    (h : mutation.apply text config = .ok outcome) : ∃ n edit,
      mutation.resolve (.ofText text) config = .ok (n, edit) ∧
      (Document.ofText text).edit config n edit = .ok (.ofText (outcome.text text)) := by
  obtain ⟨updated, happly, rfl⟩ := exists_of_map_eq_ok h
  obtain ⟨n, edit, hresolve, hedit⟩ := applyTo_eq_ok_iff.mp happly
  refine ⟨n, edit, hresolve, ?_⟩
  split
  · next hsame =>
      rw [hsame] at hedit
      exact hedit
  · rwa [Outcome.text, (isCut_of_applyTo (Document.isCut_ofText text) happly).ofText_toText]

theorem eq_of_resolve_resizeRegion {doc : Document} {n : Nat} {edit : Edit}
    (h : (resizeRegion element bounds viewport).resolve doc config = .ok (n, edit)) :
    element.line = some n ∧
      edit = .resize element.kind (bounds.topLeft viewport) (bounds.bottomRight viewport) := by
  simp only [resolve] at h
  split at h
  · cases h
  · next line hline =>
      split at h
      · obtain ⟨rfl, rfl⟩ := Prod.mk.inj (Except.ok.inj h)
        exact ⟨ownLine_eq_ok hline, rfl⟩
      · cases h

theorem written_of_inUnit {x : Float} (h : InUnit x) (places : Nat) :
    0 ≤ Decimal.written (Decimal.fixed x places) ∧ Decimal.written (Decimal.fixed x places) ≤ 1 := by
  have hzero := Decimal.written_fixed_le (by decide +kernel) h.isFinite h.not_lt_zero places
  have hone := Decimal.written_fixed_le h.isFinite (by decide +kernel) h.not_one_lt places
  rw [Decimal.written_fixed_zero] at hzero
  rw [Decimal.written_fixed_one] at hone
  exact ⟨hzero, hone⟩

theorem printed_of_agreesAt {precision : Nat} {number : Number} {x : Float}
    (h : Decimal.agreesAt precision number.value x = true) :
    number.printed precision = Decimal.written (Decimal.fixed x precision) := by
  rw [Number.printed, beq_iff_eq.mp h]

/-- Four numbers that agree with four values are printed as the values are. -/
theorem exists_four_of_agree {precision : Nat} {numbers : List Number} {a b c d : Float}
    (h : Field.Agree precision numbers [a, b, c, d]) : ∃ top left bottom right,
      numbers = [top, left, bottom, right] ∧
      top.printed precision = Decimal.written (Decimal.fixed a precision) ∧
      left.printed precision = Decimal.written (Decimal.fixed b precision) ∧
      bottom.printed precision = Decimal.written (Decimal.fixed c precision) ∧
      right.printed precision = Decimal.written (Decimal.fixed d precision) := by
  obtain ⟨top, _, ha, hthree, rfl⟩ := List.forall₂_cons_right_iff.mp h
  obtain ⟨left, _, hb, htwo, rfl⟩ := List.forall₂_cons_right_iff.mp hthree
  obtain ⟨bottom, _, hc, hone, rfl⟩ := List.forall₂_cons_right_iff.mp htwo
  obtain ⟨right, _, hd, hnone, rfl⟩ := List.forall₂_cons_right_iff.mp hone
  obtain rfl := List.forall₂_nil_right_iff.mp hnone
  exact ⟨top, left, bottom, right, rfl, printed_of_agreesAt ha, printed_of_agreesAt hb,
    printed_of_agreesAt hc, printed_of_agreesAt hd⟩

/-- Numbers that show values between zero and one are printed so. -/
theorem printed_of_agree {precision : Nat} {numbers : List Number} {values : List Float}
    (h : Field.Agree precision numbers values) (hvalues : ∀ x ∈ values, InUnit x) :
    ∀ number ∈ numbers, 0 ≤ number.printed precision ∧ number.printed precision ≤ 1 := by
  induction h with
  | nil => simp
  | cons hnumber _ ih =>
      rw [List.forall_mem_cons] at hvalues ⊢
      refine ⟨?_, ih hvalues.2⟩
      rw [printed_of_agreesAt hnumber]
      exact written_of_inUnit hvalues.1 precision

theorem written_lesser_le_greater {a b : Float} (ha : InUnit a) (hb : InUnit b) (places : Nat) :
    Decimal.written (Decimal.fixed (lesser a b) places) ≤ Decimal.written (Decimal.fixed (greater a b) places) :=
  Decimal.written_fixed_le (ha.lesser hb).isFinite (ha.greater hb).isFinite
    (not_greater_lt_lesser ha.isFinite hb.isFinite) places

/-- Numbers that show the edges of a region inside the map are printed in their order. -/
theorem printed_of_agree_edges {precision : Nat} {numbers : List Number} {first second : Position}
    (hfirst : first.IsInside) (hsecond : second.IsInside)
    (h : Field.Agree precision numbers (first.edges second)) : ∃ top left bottom right,
      numbers = [top, left, bottom, right] ∧ bottom.printed precision ≤ top.printed precision ∧
      left.printed precision ≤ right.printed precision := by
  obtain ⟨top, left, bottom, right, rfl, htop, hleft, hbottom, hright⟩ := exists_four_of_agree h
  refine ⟨top, left, bottom, right, rfl, ?_, ?_⟩
  · rw [htop, hbottom]
    exact written_lesser_le_greater hfirst.visibility hsecond.visibility precision
  · rw [hleft, hright]
    exact written_lesser_le_greater hfirst.maturity hsecond.maturity precision

/-- The line of a region that has been resized shows its edges. -/
theorem exists_agree_edges {doc doc' : Document} {n : Nat} {kind : Kind} {first second : Position}
    (hfirst : first.IsInside) (hsecond : second.IsInside)
    (h : doc.edit config n (.resize kind first second) = .ok doc') : ∃ line r bracket,
      doc'.line? n = some line ∧ Statement.ofLine? kind line = some (.region r) ∧
      r.coordinates = some bracket ∧ Field.Agree config.precision bracket.values (first.edges second) := by
  obtain ⟨hsupported, line, statement, rs, hline, hstatement, hplan, hdoc⟩ := Document.edit_eq_ok_iff.mp h
  have hfinite : ∀ x ∈ first.edges second, x.isFinite = true := fun x hx =>
    (Position.inUnit_of_mem_edges hfirst hsecond x hx).isFinite
  obtain ⟨line', statement', rfl, hstatement', hrewrites, -⟩ :=
    Edit.exists_rewrites hsupported rfl hfinite hstatement hplan
  have hwrites := Document.writes_of_withLine? hline hdoc (Edit.fits_of_plan? hstatement hplan)
  have hkind : kind.isRegion = true := by simpa [Edit.unsupported?] using hsupported
  have hregion : Statement.ofLine? kind _ = some statement' := hstatement'
  rw [Statement.ofLine?_region hkind] at hregion
  obtain ⟨r, -, rfl⟩ := Option.map_eq_some_iff.mp hregion
  obtain ⟨numbers, hnumbers, hagree⟩ := hrewrites.shows
  obtain ⟨bracket, hbracket, rfl⟩ := Option.map_eq_some_iff.mp hnumbers
  exact ⟨_, r, bracket, hwrites.line, hstatement', hbracket, hagree⟩

/-- The order in which the edges of a rectangle are given makes no difference to what becomes of the map text.
If the region is resized then its line, read again, shows four numbers that are printed as numbers between zero
and one, the top not below the bottom and the left not behind the right. -/
theorem apply_resizeRegion (hfinite : bounds.IsFinite) (element : Element) (viewport : Viewport) (text : Text)
    (config : Config) :
    let resize (r : Rect) : Except Refusal Outcome := (resizeRegion element r viewport).apply text config
    (resize bounds.flipX = resize bounds ∧ resize bounds.flipY = resize bounds ∧
      resize bounds.flipX.flipY = resize bounds) ∧
    ∀ outcome, resize bounds = .ok outcome → ∃ n line r bracket top left bottom right,
      element.line = some n ∧ (Document.ofText (outcome.text text)).line? n = some line ∧
      Statement.ofLine? element.kind line = some (.region r) ∧ r.coordinates = some bracket ∧
      bracket.values = [top, left, bottom, right] ∧
      (∀ number ∈ bracket.values,
        0 ≤ number.printed config.precision ∧ number.printed config.precision ≤ 1) ∧
      bottom.printed config.precision ≤ top.printed config.precision ∧
      left.printed config.precision ≤ right.printed config.precision := by
  intro resize
  have hflipX : resize bounds.flipX = resize bounds :=
    apply_resizeRegion_congr hfinite.flipX (Rect.upright_flipX hfinite) text
  have hflipY : resize bounds.flipY = resize bounds :=
    apply_resizeRegion_congr hfinite.flipY (Rect.upright_flipY hfinite) text
  have hflips : resize bounds.flipX.flipY = resize bounds.flipX :=
    apply_resizeRegion_congr hfinite.flipX.flipY (Rect.upright_flipY hfinite.flipX) text
  refine ⟨⟨hflipX, hflipY, hflips.trans hflipX⟩, fun outcome h => ?_⟩
  obtain ⟨n, edit, hresolve, hedit⟩ := ofText_of_apply h
  obtain ⟨hn, rfl⟩ := eq_of_resolve_resizeRegion hresolve
  obtain ⟨hfirst, hsecond⟩ := Rect.isInside_position hfinite viewport
  obtain ⟨line, r, bracket, hline, hstatement, hbracket, hagree⟩ := exists_agree_edges hfirst hsecond hedit
  obtain ⟨top, left, bottom, right, hlist, hvisibility, hmaturity⟩ := printed_of_agree_edges hfirst hsecond hagree
  have hprinted := printed_of_agree hagree (Position.inUnit_of_mem_edges hfirst hsecond)
  exact ⟨n, line, r, bracket, top, left, bottom, right, hn, hline, hstatement, hbracket, hlist, hprinted,
    hvisibility, hmaturity⟩

/-- A rectangle that reaches past two edges of the map, given from its lower right corner. -/
theorem apply_resizeRegion_outside :
    let element : Element := ⟨.pioneers, [], some 1, .placed⟩
    let bounds : Rect := ⟨900.0, 700.0, 40.0, 150.0⟩
    let text : Text := "pioneers [0.9, 0.1, 0.2, 0.3]".toList
    let next : Text := "pioneers [0.75, 0.05, 0.00, 1.00]".toList
    (resizeRegion element bounds {}).apply text {} = .ok (.changed next) ∧
    (resizeRegion element bounds.flipX.flipY {}).apply text {} = .ok (.changed next) ∧
    ∃ line r bracket, (Document.ofText next).line? 1 = some line ∧
      Statement.ofLine? .pioneers line = some (.region r) ∧ r.coordinates = some bracket ∧
      ∀ number ∈ bracket.values, 0 ≤ number.printed 2 ∧ number.printed 2 ≤ 1 := by
  intro element bounds text next
  have hfinite : bounds.IsFinite :=
    ⟨by decide +kernel, by decide +kernel, by decide +kernel, by decide +kernel⟩
  have happly : (resizeRegion element bounds {}).apply text {} = .ok (.changed next) := by decide +kernel
  obtain ⟨⟨-, -, hflips⟩, hwritten⟩ := apply_resizeRegion hfinite element {} text {}
  obtain ⟨n, line, r, bracket, -, -, -, -, hn, hline, hstatement, hbracket, -, hprinted, -⟩ :=
    hwritten _ happly
  obtain rfl : 1 = n := Option.some.inj hn
  exact ⟨happly, hflips.trans happly, line, r, bracket, hline, hstatement, hbracket, hprinted⟩

end Mutation

end WardleyMap
