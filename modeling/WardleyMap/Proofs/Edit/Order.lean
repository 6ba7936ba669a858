import WardleyMap.Proofs.Edit.Evolution
import WardleyMap.Proofs.Edit.Label
import WardleyMap.Proofs.Edit.Rename
import WardleyMap.Proofs.Edit.Sequence

/-!
# The order of edits

The name, the numbers and the label of a statement are written by three edits, and each of them reads the line
that the others have left. Taken apart into its layout the line shows that they do not meet: an edit changes
a part of the layout that the other two neither read nor change. For placements these parts are the written
name, the two fields and what follows the bracket; for evolved components the names, the number and what
follows it. So the three edits may be made in any order.
-/

namespace WardleyMap

/-! ### Placements -/

namespace Placement.Layout

variable {kind : Kind} {l : Layout} {precision : Nat} {newName : Text} {x y : Float}

def setName (l : Layout) (newName : Text) : Layout :=
  if l.value = newName then l else l.rename newName

def setCoordinates (l : Layout) (precision : Nat) (x y : Float) : Layout :=
  match Field.rewrite precision [l.first, l.second] [x, y] with
  | [first, second] => { l with first, second }
  | _ => l

def setLabel (l : Layout) (precision : Nat) (dx dy : Float) : Layout :=
  { l with tail := relabel precision dx dy l.tail }

/-- The line after an edit of its name, its coordinates or its label. -/
def change (l : Layout) (call : Config × Edit) : Layout :=
  match call.2 with
  | .rename _ _ newName => l.setName newName
  | .move _ _ position =>
    l.setCoordinates call.1.precision position.visibility position.maturity
  | .setLabel _ _ offset => l.setLabel call.1.precision offset.dx offset.dy
  | _ => l

/-- The line is read as its parts, and spaces separate the keyword from the name. -/
structure Spaced (kind : Kind) (l : Layout) : Prop where
  reads : l.Reads kind
  before_eq_nil : l.before = []
  gap_ne_nil : l.gap ≠ []

theorem applyAll_setName (hblank : newName.isAllBlank = false) :
    Replacement.applyAll ((l.placement kind).rename newName) (l.line kind)
      = (l.setName newName).line kind := by
  unfold Placement.rename setName
  have hname : (l.placement kind).name.value = l.value := rfl
  by_cases hsame : l.value = newName
  · rw [if_pos (Or.inr (hname.trans hsame)), if_pos hsame, Replacement.applyAll_nil]
  · rw [if_neg (by simp [hblank, hname, hsame]), if_neg hsame]
    exact applyAll_rename kind l newName

theorem Spaced.setName (h : l.Spaced kind) (hblank : newName.isAllBlank = false)
    (hname : '\\' ∉ newName) : (l.setName newName).Spaced kind := by
  unfold Layout.setName
  split
  · exact h
  · exact ⟨h.reads.rename h.before_eq_nil h.gap_ne_nil hblank hname, h.before_eq_nil, h.gap_ne_nil⟩

theorem applyAll_setCoordinates (hfinite : ∀ v ∈ [x, y], v.isFinite = true) :
    Replacement.applyAll ((l.placement kind).setCoordinates precision x y) (l.line kind)
      = (l.setCoordinates precision x y).line kind := by
  obtain ⟨first, second, hrewrite⟩ := List.length_eq_two.mp
    (@Field.length_rewrite precision [l.first, l.second] [x, y] rfl)
  have hwritten := (@Field.applyAll_writeNumbers precision [l.first, l.second] [x, y] _ _ rfl hfinite
    (l.length_upToFirst kind) (']' :: l.tail)).1
  rw [← line_eq_upToFirst, hrewrite] at hwritten
  rw [setCoordinates, hrewrite, line_eq_upToFirst kind { l with first, second }]
  exact hwritten

theorem Spaced.setCoordinates (h : l.Spaced kind) : (l.setCoordinates precision x y).Spaced kind := by
  unfold Layout.setCoordinates
  split
  · exact ⟨h.reads.withFields _ _, h.before_eq_nil, h.gap_ne_nil⟩
  · exact h

theorem applyAll_setLabel (hfinite : ∀ v ∈ [x, y], v.isFinite = true) :
    ∃ rs, (l.placement kind).setLabel? precision x y = some rs ∧
      Replacement.applyAll rs (l.line kind) = (l.setLabel precision x y).line kind := by
  refine ⟨_, if_pos rfl, ?_⟩
  have hwritten := @applyAll_writeLabel precision x y hfinite (l.upToTail kind) l.tail
  rw [← length_upToTail, ← line_eq_upToTail] at hwritten
  rw [line_eq_upToTail kind (l.setLabel precision x y)]
  exact hwritten

theorem Spaced.setLabel (h : l.Spaced kind) (hfinite : ∀ v ∈ [x, y], v.isFinite = true) :
    (l.setLabel precision x y).Spaced kind := by
  obtain ⟨before, old, new, rest, htail, hnew, hplain, hplain', hne⟩ :=
    @exists_relabel precision x y hfinite l.tail
  have hreads := h.reads.withTail htail hplain hplain' hne
  rw [← hnew] at hreads
  exact ⟨hreads, h.before_eq_nil, h.gap_ne_nil⟩

/-- The name and the coordinates of a line are written in any order. -/
theorem setName_setCoordinates (l : Layout) (newName : Text) (precision : Nat) (x y : Float) :
    (l.setName newName).setCoordinates precision x y
      = (l.setCoordinates precision x y).setName newName := by
  unfold setName setCoordinates rename
  by_cases hsame : l.value = newName
  · rw [if_pos hsame]
    split
    · rw [if_pos hsame]
    · rw [if_pos hsame]
  · rw [if_neg hsame]
    dsimp only
    split
    · rw [if_neg hsame]
    · rw [if_neg hsame]

theorem setName_setLabel (l : Layout) (newName : Text) (precision : Nat) (x y : Float) :
    (l.setName newName).setLabel precision x y = (l.setLabel precision x y).setName newName := by
  unfold setName setLabel rename
  split <;> rfl

theorem setCoordinates_setLabel (l : Layout) (precision precision' : Nat) (x y dx dy : Float) :
    (l.setCoordinates precision x y).setLabel precision' dx dy
      = (l.setLabel precision' dx dy).setCoordinates precision x y := by
  unfold setCoordinates setLabel
  dsimp only
  split <;> rfl

/-! #### Edits -/

theorem Reads.statement (hkind : kind.isPlacement = true) (h : l.Reads kind) :
    Statement.ofLine? kind (l.line kind) = some (.placement (l.placement kind)) := by
  rw [Statement.ofLine?_placement hkind, h.ofLine?_eq, Option.map_some]

theorem Spaced.turns_rename (h : l.Spaced kind) (hkind : kind.isPlacement = true)
    (hblank : newName.isAllBlank = false) (config : Config) (expected : Text) :
    (Edit.rename kind expected newName).Turns config (l.line kind) ((l.setName newName).line kind) :=
  ⟨by rw [Edit.unsupported?, hkind]; rfl, _, _, h.reads.statement hkind, rfl, applyAll_setName hblank⟩

theorem Spaced.turns_move (h : l.Spaced kind) (hkind : kind.isPlacement = true)
    (hmovable : kind.isMovable = true) (config : Config) (expected : Text) {position : Position}
    (hfinite : ∀ v ∈ [position.visibility, position.maturity], v.isFinite = true) :
    (Edit.move kind expected position).Turns config (l.line kind)
      ((l.setCoordinates config.precision position.visibility position.maturity).line kind) :=
  ⟨by rw [Edit.unsupported?, hmovable]; rfl, _, _, h.reads.statement hkind, rfl,
    applyAll_setCoordinates hfinite⟩

theorem Spaced.turns_setLabel (h : l.Spaced kind) (hkind : kind.isPlacement = true) (config : Config)
    (expected : Text) {offset : Vec} (hfinite : ∀ v ∈ [offset.dx, offset.dy], v.isFinite = true) :
    (Edit.setLabel kind expected offset).Turns config (l.line kind)
      ((l.setLabel config.precision offset.dx offset.dy).line kind) := by
  obtain ⟨rs, hplan, happly⟩ := @applyAll_setLabel kind l config.precision _ _ hfinite
  refine ⟨?_, _, rs, h.reads.statement hkind, hplan, happly⟩
  rw [Edit.unsupported?, Kind.isLabelled, hkind]
  rfl

end Placement.Layout

/-! ### Evolved components -/

namespace Evolution.Layout

variable {l : Layout} {precision : Nat} {newName : Text} {x dx dy : Float}

/-- The line with the label written, where a new label is put behind the number. -/
def labelNumber (l : Layout) (precision : Nat) (dx dy : Float) : Layout :=
  if l.tail = [] then
    { l with
      stretch := { l.stretch with trailing := [' '] }
      tail := (Clause.fresh .label precision [dx, dy]).tail ++ l.stretch.trailing }
  else l.writeLabel precision dx dy

theorem setLabel_eq (h : l.stretch.literal ≠ []) :
    l.setLabel precision dx dy = l.labelNumber precision dx dy := by
  rw [setLabel, labelNumber, insertLabel, Stretch.cut, Stretch.remainder, if_neg h, if_neg h]

/-- The line after an edit of its second name, its number or its label. -/
def change (l : Layout) (call : Config × Edit) : Layout :=
  match call.2 with
  | .setOverride _ newName => l.setOverride newName
  | .moveEvolution _ maturity => l.setMaturity call.1.precision maturity
  | .setLabel _ _ offset => l.labelNumber call.1.precision offset.dx offset.dy
  | _ => l

/-- The line is read as its parts, has a number and names, and the first of these is another than
`newName`. -/
structure Named (newName : Text) (l : Layout) : Prop where
  reads : l.Reads
  name_ne_nil : l.stretch.name ≠ []
  literal_ne_nil : l.stretch.literal ≠ []
  differs : newName ≠ l.evolution.name.value

/-- Writing the second name keeps what `Named` says of a line. -/
theorem Named.setOverride (h : l.Named newName) (hbare : Name.IsBare newName) (hne : newName ≠ []) :
    (l.setOverride newName).Named newName := by
  have hreads := h.reads.setOverride h.name_ne_nil h.literal_ne_nil hbare hne
  have hdiffers := h.differs
  rw [name_eq] at hdiffers
  unfold Layout.setOverride at hreads ⊢
  split at hreads
  · next hfront =>
      refine ⟨hreads, hne, h.literal_ne_nil, ?_⟩
      rw [name_eq]
      rw [hfront] at hdiffers
      exact hdiffers
  · next f hfront =>
      refine ⟨hreads, hne, h.literal_ne_nil, ?_⟩
      rw [name_eq]
      rw [hfront] at hdiffers
      rw [withName, hfront]
      exact hdiffers

theorem Named.setMaturity (h : l.Named newName) (hx : x.isFinite = true) :
    (l.setMaturity precision x).Named newName := by
  have hs := (h.reads.stretch.number_of_ne_nil h.literal_ne_nil).1
  have hdiffers := h.differs
  rw [name_eq] at hdiffers
  refine ⟨h.reads.setMaturity h.name_ne_nil h.literal_ne_nil hx, h.name_ne_nil,
    Decimal.literal_ne_nil (isLiteral_rewriteLiteral hx hs), ?_⟩
  rw [name_eq]
  exact hdiffers

theorem parts_labelNumber (l : Layout) (precision : Nat) (dx dy : Float) :
    (l.labelNumber precision dx dy).front = l.front ∧
      (l.labelNumber precision dx dy).stretch.name = l.stretch.name ∧
      (l.labelNumber precision dx dy).stretch.literal = l.stretch.literal := by
  unfold labelNumber
  split
  · exact ⟨rfl, rfl, rfl⟩
  · exact ⟨rfl, rfl, rfl⟩

theorem Named.labelNumber (h : l.Named newName) (hfinite : ∀ v ∈ [dx, dy], v.isFinite = true) :
    (l.labelNumber precision dx dy).Named newName := by
  have hreads := (@Reads.setLabel _ precision _ _ h.reads h.name_ne_nil hfinite).1
  rw [setLabel_eq h.literal_ne_nil] at hreads
  obtain ⟨hfront, hname, hliteral⟩ := parts_labelNumber l precision dx dy
  refine ⟨hreads, hname ▸ h.name_ne_nil, hliteral ▸ h.literal_ne_nil, ?_⟩
  rw [name_eq, hfront, hname, ← name_eq]
  exact h.differs

theorem setOverride_setMaturity (l : Layout) (newName : Text) (precision : Nat) (x : Float) :
    (l.setOverride newName).setMaturity precision x = (l.setMaturity precision x).setOverride newName := by
  unfold setOverride setMaturity
  dsimp only
  split <;> rfl

/-- The second name and the label are written in any order. -/
theorem setOverride_labelNumber (l : Layout) (newName : Text) (precision : Nat) (dx dy : Float) :
    (l.setOverride newName).labelNumber precision dx dy
      = (l.labelNumber precision dx dy).setOverride newName := by
  have hfront' := (parts_labelNumber l precision dx dy).1
  unfold setOverride
  rw [hfront']
  split
  · unfold labelNumber insertName writeLabel
    dsimp only
    split <;> rfl
  · unfold labelNumber withName writeLabel
    dsimp only
    split <;> rfl

theorem setMaturity_labelNumber (l : Layout) (precision precision' : Nat) (x dx dy : Float) :
    (l.setMaturity precision x).labelNumber precision' dx dy
      = (l.labelNumber precision' dx dy).setMaturity precision x := by
  unfold setMaturity labelNumber writeLabel
  dsimp only
  split <;> rfl

/-! #### Edits -/

theorem Named.turns_setOverride (h : l.Named newName) (hbare : Name.IsBare newName)
    (hne : newName ≠ []) (config : Config) (expected : Text) :
    (Edit.setOverride expected newName).Turns config l.line (l.setOverride newName).line :=
  ⟨rfl, _, _, Document.statement_evolution h.reads.ofLine?_eq, rfl,
    applyAll_setOverride_of_isBare hbare hne h.differs⟩

theorem Named.turns_moveEvolution (h : l.Named newName) (config : Config) (expected : Text) (x : Float) :
    (Edit.moveEvolution expected x).Turns config l.line (l.setMaturity config.precision x).line :=
  ⟨rfl, _, _, Document.statement_evolution h.reads.ofLine?_eq, rfl,
    applyAll_setMaturity h.literal_ne_nil⟩

theorem Named.turns_setLabel (h : l.Named newName) (config : Config) (expected : Text) {offset : Vec}
    (hfinite : ∀ v ∈ [offset.dx, offset.dy], v.isFinite = true) :
    (Edit.setLabel .evolve expected offset).Turns config l.line
      (l.labelNumber config.precision offset.dx offset.dy).line := by
  have hwritten := (@Reads.setLabel _ config.precision _ _ h.reads h.name_ne_nil hfinite).2.1
  rw [setLabel_eq h.literal_ne_nil] at hwritten
  exact ⟨rfl, _, _, Document.statement_evolution h.reads.ofLine?_eq, rfl, hwritten⟩

end Evolution.Layout

/-! ### Documents -/

namespace Document

variable {doc : Document} {n : Nat} {text : Text}

theorem forall_mem_pair {x y : Float} (hx : x.isFinite = true) (hy : y.isFinite = true) :
    ∀ v ∈ [x, y], v.isFinite = true := by
  intro v hv
  simp only [List.mem_cons, List.not_mem_nil, or_false] at hv
  rcases hv with rfl | rfl
  · exact hx
  · exact hy

/-- The renaming, the move and the label of a placement come to one document in each of their orders. -/
theorem editAll_placement_perm {kind : Kind} {l : Placement.Layout} (hkind : kind.isPlacement = true)
    (hmovable : kind.isMovable = true) (hl : l.Spaced kind) (hline : doc.line? n = some (l.line kind))
    {newName : Text} (hblank : newName.isAllBlank = false) (hname : '\\' ∉ newName)
    {position : Position} (hposition : ∀ v ∈ [position.visibility, position.maturity], v.isFinite = true)
    {offset : Vec} (hoffset : ∀ v ∈ [offset.dx, offset.dy], v.isFinite = true)
    (named moved labelled : Config × Text) : ∃ doc', ∀ order,
      order.Perm [(named.1, .rename kind named.2 newName), (moved.1, .move kind moved.2 position),
        (labelled.1, .setLabel kind labelled.2 offset)] → doc.editAll n order = .ok doc' := by
  refine @editAll_perm doc n _ _ (Placement.Layout.Spaced kind) Placement.Layout.change _ l ?_ ?_ hl hline
  · intro call hcall l hl
    simp only [List.mem_cons, List.not_mem_nil, or_false] at hcall
    rcases hcall with rfl | rfl | rfl
    · exact ⟨hl.setName hblank hname, hl.turns_rename hkind hblank _ _⟩
    · exact ⟨hl.setCoordinates, hl.turns_move hkind hmovable _ _ hposition⟩
    · exact ⟨hl.setLabel hoffset, hl.turns_setLabel hkind _ _ hoffset⟩
  · simp only [List.pairwise_cons, List.mem_cons, List.not_mem_nil, or_false, forall_eq_or_imp, forall_eq,
      Placement.Layout.change]
    exact ⟨⟨fun l => l.setName_setCoordinates _ _ _ _, fun l => l.setName_setLabel _ _ _ _⟩,
      fun l => l.setCoordinates_setLabel _ _ _ _ _ _, by simp, .nil⟩

/-- The override, the maturity and the label of an evolved component come to one document in each of their
orders. -/
theorem editAll_evolution_perm {l : Evolution.Layout} {newName : Text} (hl : l.Named newName)
    (hline : doc.line? n = some l.line) (hbare : Name.IsBare newName) (hne : newName ≠ [])
    {maturity : Float} (hmaturity : maturity.isFinite = true)
    {offset : Vec} (hoffset : ∀ v ∈ [offset.dx, offset.dy], v.isFinite = true)
    (named moved labelled : Config × Text) : ∃ doc', ∀ order,
      order.Perm [(named.1, .setOverride named.2 newName), (moved.1, .moveEvolution moved.2 maturity),
        (labelled.1, .setLabel .evolve labelled.2 offset)] → doc.editAll n order = .ok doc' := by
  refine @editAll_perm doc n _ _ (Evolution.Layout.Named newName) Evolution.Layout.change _ l ?_ ?_ hl hline
  · intro call hcall l hl
    simp only [List.mem_cons, List.not_mem_nil, or_false] at hcall
    rcases hcall with rfl | rfl | rfl
    · exact ⟨hl.setOverride hbare hne, hl.turns_setOverride hbare hne _ _⟩
    · exact ⟨hl.setMaturity hmaturity, hl.turns_moveEvolution _ _ _⟩
    · exact ⟨hl.labelNumber hoffset, hl.turns_setLabel _ _ hoffset⟩
  · simp only [List.pairwise_cons, List.mem_cons, List.not_mem_nil, or_false, forall_eq_or_imp, forall_eq,
      Evolution.Layout.change]
    exact ⟨⟨fun l => l.setOverride_setMaturity _ _ _, fun l => l.setOverride_labelNumber _ _ _ _⟩,
      fun l => l.setMaturity_labelNumber _ _ _ _ _, by simp, .nil⟩

/-- The name, the numbers and the label of a statement may be written in any order: all six orders are
carried out, and they give one document. -/
theorem edit_order (hline : doc.line? n = some text) (named moved labelled : Config × Text)
    (newName : Text) {offset : Vec} (hdx : offset.dx.isFinite = true) (hdy : offset.dy.isFinite = true) :
    (∀ (kind : Kind) (p : Placement) (lead gap : Text) (position : Position),
      kind.isMovable = true → Placement.ofLine? kind text = some p → p.coordinates.isSome = true →
      text.take p.name.span.start = lead ++ (kind.keyword ++ gap) →
      (∀ ch ∈ lead, isSpace ch = true) → (∀ ch ∈ gap, isSpace ch = true) → gap ≠ [] →
      newName.isAllBlank = false → '\\' ∉ newName →
      position.visibility.isFinite = true → position.maturity.isFinite = true →
      ∃ doc', ∀ order, order.Perm [(named.1, .rename kind named.2 newName),
        (moved.1, .move kind moved.2 position), (labelled.1, .setLabel kind labelled.2 offset)] →
        doc.editAll n order = .ok doc') ∧
    (∀ (e : Evolution) (maturity : Float), '"' ∉ text → Evolution.ofLine? text = some e →
      e.name.value ≠ [] → (∀ clause ∈ e.override, clause.name.value ≠ []) →
      e.maturity.isSome = true → newName ≠ [] → Name.needsQuoting newName = false →
      newName ≠ e.name.value → maturity.isFinite = true →
      ∃ doc', ∀ order, order.Perm [(named.1, .setOverride named.2 newName),
        (moved.1, .moveEvolution moved.2 maturity), (labelled.1, .setLabel .evolve labelled.2 offset)] →
        doc.editAll n order = .ok doc') := by
  constructor
  · intro kind p lead gap position hmovable hp hcoordinates hopening hlead hgap hne hblank hname hv hm
    have hkind : kind.isPlacement = true := by
      cases kind with
      | component | note | anchor => rfl
      | pipeline | evolve | pioneers | settlers | townPlanners | annotation =>
          simp [Kind.isMovable] at hmovable
    obtain ⟨l, hreads, rfl, rfl⟩ := Placement.exists_layout hp hcoordinates
    obtain ⟨hbefore, rfl⟩ := hreads.before_eq_nil hopening hlead hgap
    exact editAll_placement_perm hkind hmovable ⟨hreads, hbefore, hne⟩ hline hblank hname
      (forall_mem_pair hv hm) (forall_mem_pair hdx hdy) named moved labelled
  · intro e maturity hquote he hbase hoverride hmaturity hne hquoting hdiffers hx
    obtain ⟨l, hl, rfl, rfl⟩ := Evolution.exists_layout he hquote
    have hname := Evolution.Layout.name_ne_nil_of_names hbase hoverride
    have hliteral := Evolution.Layout.literal_ne_nil_of_maturity hmaturity
    exact editAll_evolution_perm ⟨hl, hname, hliteral, hdiffers⟩ hline (Name.isBare_iff.mp hquoting) hne hx
      (forall_mem_pair hdx hdy) named moved labelled

/-- The same new name, position and offset for a component and for what it evolves to. -/
theorem edit_order_component :
    let doc := ofText "component A [0.5, 0.5]\nevolve A 0.6".toList
    let moved := ofText "component B [0.25, 0.75] label [1.00, -2.00]\nevolve A 0.6".toList
    let evolved := ofText "component A [0.5, 0.5]\nevolve A->B 0.75 label [1.00, -2.00]".toList
    (∀ order, order.Perm [({}, .rename .component ['A'] ['B']),
      ({}, .move .component ['A'] ⟨0.75, 0.25⟩), ({}, .setLabel .component ['A'] ⟨1, -2⟩)] →
      doc.editAll 1 order = .ok moved) ∧
    ∀ order, order.Perm [({}, .setOverride ['A'] ['B']), ({}, .moveEvolution ['A'] 0.75),
      ({}, .setLabel .evolve ['A'] ⟨1, -2⟩)] → doc.editAll 2 order = .ok evolved := by
  intro doc moved evolved
  constructor
  · have hline : doc.line? 1 = some "component A [0.5, 0.5]".toList := by decide +kernel
    let p := (Placement.ofLine? .component "component A [0.5, 0.5]".toList).get (by decide +kernel)
    have hp : Placement.ofLine? .component "component A [0.5, 0.5]".toList = some p :=
      (Option.some_get _).symm
    have hopening : List.take p.name.span.start "component A [0.5, 0.5]".toList =
        [] ++ (Kind.keyword .component ++ [' ']) := by decide +kernel
    obtain ⟨hplacement, -⟩ := @edit_order doc 1 _ hline ({}, ['A']) ({}, ['A']) ({}, ['A']) ['B']
      ⟨1, -2⟩ (by decide +kernel) (by decide +kernel)
    obtain ⟨doc', horders⟩ := hplacement .component p [] [' '] ⟨0.75, 0.25⟩ rfl hp (by decide +kernel)
      hopening (by simp) isSpace_of_mem_space (by decide) (by decide) (by decide) (by decide +kernel)
      (by decide +kernel)
    have hmoved : doc.editAll 1 [({}, .rename .component ['A'] ['B']),
        ({}, .move .component ['A'] ⟨0.75, 0.25⟩), ({}, .setLabel .component ['A'] ⟨1, -2⟩)] =
        .ok moved := by decide +kernel
    obtain rfl : moved = doc' := Except.ok.inj (hmoved.symm.trans (horders _ (.refl _)))
    exact horders
  · have hline : doc.line? 2 = some "evolve A 0.6".toList := by decide +kernel
    let e := (Evolution.ofLine? "evolve A 0.6".toList).get (by decide +kernel)
    have he : Evolution.ofLine? "evolve A 0.6".toList = some e := (Option.some_get _).symm
    have hnone : e.override = none := by decide +kernel
    obtain ⟨-, hevolution⟩ := @edit_order doc 2 _ hline ({}, ['A']) ({}, ['A']) ({}, ['A']) ['B']
      ⟨1, -2⟩ (by decide +kernel) (by decide +kernel)
    obtain ⟨doc', horders⟩ := hevolution e 0.75 (by decide +kernel) he (by decide +kernel) (by simp [hnone])
      (by decide +kernel) (by decide) (by decide +kernel) (by decide +kernel) (by decide +kernel)
    have hevolved : doc.editAll 2 [({}, .setOverride ['A'] ['B']), ({}, .moveEvolution ['A'] 0.75),
        ({}, .setLabel .evolve ['A'] ⟨1, -2⟩)] = .ok evolved := by decide +kernel
    obtain rfl : evolved = doc' := Except.ok.inj (hevolved.symm.trans (horders _ (.refl _)))
    exact horders

end Document

end WardleyMap
