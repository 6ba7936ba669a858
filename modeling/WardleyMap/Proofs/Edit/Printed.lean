import WardleyMap.Proofs.Edit.Rewrite
import WardleyMap.Proofs.Edit.WrittenNumber
import WardleyMap.Proofs.Geometry.Bounds

/-!
# What an edit puts into its line

The text that takes the place of a span is a name, a remark, a number or a clause of numbers, and which of them it
may be depends on the edit. `Edit.Puts` lists the forms, each with the numbers that are printed in it: they are
the values of the edit, all of them or one. So an edit prints no other number than it was given, and for a finite
value that is a plain decimal.
-/

namespace WardleyMap

/-- The text is a sign or none, digits, and, if there are places, a point and so many digits. -/
def Decimal.IsPlain (places : Nat) (s : Text) : Prop :=
  ∃ sign whole digits, IsPlaced places sign whole digits ∧ s = placedText places sign whole digits

namespace Edit

def values : Edit → List Float
  | move _ _ position => [position.visibility, position.maturity]
  | moveEvolution _ maturity => [maturity]
  | setRange _ start stop => if start ≤ stop then [start, stop] else [stop, start]
  | setLabel _ _ offset => [offset.dx, offset.dy]
  | resize _ first second => first.edges second
  | rename _ _ _ | setOverride _ _ | setText _ => []

/-- The text may take the place of a span in an edit, and these are the numbers that are printed in it. -/
inductive Puts (precision : Nat) : Edit → (text : Text) → (numbers : List Text) → Prop
  | name {kind : Kind} {name newName : Text} :
      Puts precision (.rename kind name newName) (Name.encode newName) []
  | override {name newName : Text} : Puts precision (.setOverride name newName) (Name.encode newName) []
  | arrow {name newName : Text} :
      Puts precision (.setOverride name newName) (Name.arrow ++ Name.encode newName) []
  | noOverride {name newName : Text} : Puts precision (.setOverride name newName) [] []
  | remark {newText : Text} : Puts precision (.setText newText) (' ' :: newText.fold) []
  | noRemark {newText : Text} : Puts precision (.setText newText) [] []
  | number {edit : Edit} {x : Float} (mem : x ∈ edit.values) :
      Puts precision edit (Decimal.fixed x precision) [Decimal.fixed x precision]
  | maturity {name : Text} {x : Float} :
      Puts precision (.moveEvolution name x) (' ' :: Decimal.fixed x precision) [Decimal.fixed x precision]
  | clause {edit : Edit} (clause : Clause) (ne_nil : edit.values ≠ []) :
      Puts precision edit (clause.fresh precision edit.values) (edit.values.map (Decimal.fixed · precision))

variable {edit : Edit} {precision : Nat} {text : Text} {r : Replacement}

theorem puts_of_mem_writeNumbers {numbers : List Number} (h : r ∈ writeNumbers precision numbers edit.values) :
    ∃ printed, edit.Puts precision r.text printed := by
  unfold writeNumbers at h
  dsimp only at h
  split at h
  · cases h
  · obtain ⟨⟨number, x⟩, hpair, rfl⟩ := List.mem_map.mp h
    exact ⟨_, .number (List.of_mem_zip hpair).2⟩

theorem puts_of_mem_writeBracket {bracket : Option Bracket} {col : Nat} {values : List Float}
    (hvalues : edit.values = values) (hne : values ≠ []) (h : r ∈ writeBracket precision bracket col values) :
    ∃ printed, edit.Puts precision r.text printed := by
  subst hvalues
  unfold writeBracket at h
  split at h
  · exact puts_of_mem_writeNumbers h
  · rw [List.mem_singleton.mp h]
    exact ⟨_, .clause .coordinates hne⟩

theorem puts_of_mem_writeLabel {label : Option LabelClause} {col : Nat} {dx dy : Float}
    (hvalues : edit.values = [dx, dy]) (h : r ∈ writeLabel precision label col dx dy) :
    ∃ printed, edit.Puts precision r.text printed := by
  unfold writeLabel at h
  rw [← hvalues] at h
  split at h
  · exact puts_of_mem_writeNumbers h
  · rw [List.mem_singleton.mp h]
    exact ⟨_, .clause .label (by simp [hvalues])⟩

theorem puts_of_mem_rename {p : Placement} {kind : Kind} {name newName : Text} (h : r ∈ p.rename newName) :
    ∃ printed, (rename kind name newName).Puts precision r.text printed := by
  unfold Placement.rename at h
  split at h
  · cases h
  · rw [List.mem_singleton.mp h]
    exact ⟨[], .name⟩

theorem puts_of_mem_setMaturity {e : Evolution} {name : Text} {maturity : Float}
    (h : r ∈ e.setMaturity precision maturity) :
    ∃ printed, (moveEvolution name maturity).Puts precision r.text printed := by
  unfold Evolution.setMaturity at h
  split at h
  · exact puts_of_mem_writeNumbers h
  · rw [List.mem_singleton.mp h]
    exact ⟨_, .maturity⟩

/-- An override is written as a name, in which nothing is printed. -/
theorem puts_of_mem_setOverride {e : Evolution} {name newName : Text} (h : r ∈ e.setOverride newName) :
    ∃ printed, (setOverride name newName).Puts precision r.text printed := by
  unfold Evolution.setOverride at h
  dsimp only at h
  split at h
  · split at h
    · rw [List.mem_singleton.mp h]
      exact ⟨[], .noOverride⟩
    · split at h
      · cases h
      · rw [List.mem_singleton.mp h]
        exact ⟨[], .override⟩
  · split at h
    · cases h
    · rw [List.mem_singleton.mp h]
      exact ⟨[], .arrow⟩

theorem puts_of_mem_setText? {a : Annotation} {line newText : Text} {rs : List Replacement}
    (hrs : a.setText? line newText = some rs) (h : r ∈ rs) :
    ∃ printed, (setText newText).Puts precision r.text printed := by
  obtain ⟨points, -, rfl⟩ := Option.map_eq_some_iff.mp hrs
  dsimp only at h
  split at h
  · cases h
  · rw [List.mem_singleton.mp h]
    exact ⟨[], .noRemark⟩
  · split at h
    · cases h
    · rw [List.mem_singleton.mp h]
      exact ⟨[], .remark⟩
  · rw [List.mem_singleton.mp h]
    exact ⟨[], .remark⟩

/-- Whatever the statement is, an edit puts nothing else into its line. -/
theorem puts_of_mem_plan? {line : Text} {statement : Statement} {rs : List Replacement}
    (hplan : edit.plan? precision line statement = some rs) (h : r ∈ rs) :
    ∃ printed, edit.Puts precision r.text printed := by
  unfold plan? at hplan
  split at hplan
  · obtain rfl := Option.some.inj hplan
    exact puts_of_mem_rename h
  · obtain rfl := Option.some.inj hplan
    exact puts_of_mem_setOverride h
  · obtain rfl := Option.some.inj hplan
    exact puts_of_mem_writeBracket rfl (List.cons_ne_nil _ _) h
  · obtain rfl := Option.some.inj hplan
    exact puts_of_mem_setMaturity h
  · obtain rfl := Option.some.inj hplan
    split at h
    · next hle => exact puts_of_mem_writeBracket (if_pos hle) (List.cons_ne_nil _ _) h
    · next hgt => exact puts_of_mem_writeBracket (if_neg hgt) (List.cons_ne_nil _ _) h
  · unfold Placement.setLabel? at hplan
    split at hplan
    · obtain rfl := Option.some.inj hplan
      exact puts_of_mem_writeLabel rfl h
    · cases hplan
  · obtain rfl := Option.some.inj hplan
    exact puts_of_mem_writeLabel rfl h
  · obtain rfl := Option.some.inj hplan
    exact puts_of_mem_writeBracket rfl (List.cons_ne_nil _ _) h
  · exact puts_of_mem_setText? hplan h
  · obtain rfl := Option.some.inj hplan
    cases h

/-- Every number that an edit prints has the number of places that was asked for. -/
theorem Puts.isPlain {printed : List Text} (h : edit.Puts precision text printed)
    (hfinite : ∀ x ∈ edit.values, x.isFinite = true) : ∀ s ∈ printed, Decimal.IsPlain precision s := by
  cases h with
  | name | override | arrow | noOverride | remark | noRemark => simp
  | number hmem =>
      rw [List.forall_mem_singleton]
      exact Decimal.exists_isPlaced (hfinite _ hmem) precision
  | maturity =>
      rw [List.forall_mem_singleton]
      exact Decimal.exists_isPlaced (hfinite _ (List.mem_singleton.mpr rfl)) precision
  | clause clause hne =>
      rw [List.forall_mem_map]
      exact fun x hx => Decimal.exists_isPlaced (hfinite x hx) precision

/-- The edits that write numbers write those of a clause, but for the edits of an evolved component. -/
theorem exists_request?_eq (hsupported : edit.unsupported? = none) (hvalues : edit.values ≠ [])
    (hkind : edit.kind ≠ .evolve) : ∃ clause, edit.request? = some (clause, edit.values) := by
  cases edit with
  | move | setRange | resize => exact ⟨.coordinates, rfl⟩
  | setLabel kind name offset =>
      have hlabelled : kind.isLabelled = true := by simpa [unsupported?] using hsupported
      rw [Kind.isLabelled, Bool.or_eq_true, decide_eq_true_eq] at hlabelled
      have hplacement : kind.isPlacement = true := hlabelled.resolve_right hkind
      exact ⟨.label, by rw [request?, if_pos hplacement]; rfl⟩
  | moveEvolution => exact absurd rfl hkind
  | rename | setOverride | setText => exact absurd rfl hvalues

end Edit

end WardleyMap
