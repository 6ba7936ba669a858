import WardleyMap.Proofs.Grammar.Part

/-!
# Phrases of evolved components

On an `evolve` line the number is told from the names by its place: it is the last one in front of the label
where a bare name precedes it, and the first word where a quoted name does. In a phrase both are the
number that was printed, because no bare name runs past the blanks in front of that number. The first name
decides how the line is read, and so the proof has one case for either form of it.
-/

namespace WardleyMap

open Text

namespace Grammar

/-- The arrow with spaces and tabs around it and the name that overrides the first one. -/
structure Successor where
  before : Spaces
  after : Spaces
  name : BareName

def Successor.text (o : Successor) : Text :=
  o.before.text ++ (Name.arrow ++ (o.after.text ++ o.name.text))

def Successor.clause (col : Nat) (o : Successor) : OverrideClause :=
  let arrow := col + o.before.text.length
  let start := arrow + 2 + o.after.text.length
  ⟨⟨arrow, arrow + 2⟩, ⟨⟨start, start + o.name.text.length⟩, o.name.text⟩⟩

/-- A line of an evolved component. -/
structure EvolutionPhrase where
  lead : Spaces
  gap : Gap
  base : GivenName
  successor : Option Successor
  inner : Gap
  maturity : Numeral
  tail : Option LabelTail
  /-- A label does not stand right behind the number. -/
  blanks_ne_nil : ∀ t ∈ tail, t.blanks ≠ []

namespace EvolutionPhrase

variable (e : EvolutionPhrase)

def successorText : Text :=
  (e.successor.map Successor.text).getD []

def text : Text :=
  e.lead.text ++ (Kind.keyword .evolve ++ (e.gap.text ++ (e.base.written ++ (e.successorText ++
    (e.inner.text ++ (e.maturity.text ++ tailText e.tail))))))

def nameStart : Nat :=
  e.lead.text.length + (Kind.keyword .evolve).length + e.gap.text.length

def nameStop : Nat :=
  e.nameStart + e.base.written.length

def numberStart : Nat :=
  e.nameStop + e.successorText.length + e.inner.text.length

def numberStop : Nat :=
  e.numberStart + e.maturity.text.length

def evolution : Evolution :=
  ⟨⟨⟨e.nameStart, e.nameStop⟩, e.base.text⟩, e.successor.map (Successor.clause e.nameStop),
    some ⟨⟨e.numberStart, e.numberStop⟩, Decimal.value e.maturity.text⟩,
    e.tail.map (LabelTail.clause e.numberStop)⟩

def statement : Statement :=
  .evolution e.evolution

/-! ### The label -/

def behindName : Text :=
  e.successorText ++ (e.inner.text ++ (e.maturity.text ++ tailBlanks e.tail))

/-- What is neither blank nor part of a number or an arrow, and forces quotes, does not stand there. -/
theorem not_mem_behindName {ch : Char} (hforces : Name.forcesQuotes ch = true)
    (hblank : isBlank ch = false) (hnumeral : Decimal.isNumeral ch = false) (harrow : ch ∉ Name.arrow) :
    ch ∉ e.behindName := by
  have hspace := not_isSpace_of_not_isBlank hblank
  have hsuccessor : ch ∉ e.successorText := by
    rw [successorText]
    cases e.successor with
    | none => exact List.not_mem_nil
    | some o =>
        have hname := (Name.isBare_iff.mp o.name.no_quoting).not_mem hforces
        simp only [Option.map_some, Option.getD_some, Successor.text, List.mem_append, not_or]
        exact ⟨o.before.not_mem hspace, harrow, o.after.not_mem hspace, hname⟩
  have hblanks : ch ∉ tailBlanks e.tail := by
    intro hmem
    rw [isAllBlank_iff.mp (isAllBlank_tailBlanks e.tail) ch hmem] at hblank
    exact absurd hblank (by decide)
  simp only [behindName, List.mem_append, not_or]
  exact ⟨hsuccessor, e.inner.not_mem hspace, Decimal.not_mem_literal e.maturity.isLiteral hnumeral,
    hblanks⟩

theorem no_quote_behindName : '"' ∉ e.behindName :=
  e.not_mem_behindName (by decide) (by decide) (by decide) (by decide)

theorem no_bracket_behindName : ']' ∉ e.behindName :=
  e.not_mem_behindName (by decide) (by decide) (by decide) (by decide)

/-- Either the line ends here, or a label starts here and a blank precedes it. -/
theorem tail_cases (front : Text) : tailFromWord e.tail = [] ∨
    EndsBlank (front ++ e.behindName) ∧ StartsLabel (tailFromWord e.tail) := by
  cases htail : e.tail with
  | none => exact .inl rfl
  | some t =>
      have hne := e.blanks_ne_nil t htail
      refine .inr ⟨?_, t.startsLabel⟩
      have hsplit : front ++ e.behindName
          = (front ++ (e.successorText ++ (e.inner.text ++ e.maturity.text))) ++ t.blanks := by
        simp only [behindName, htail, tailBlanks, Option.map_some, Option.getD_some, List.append_assoc]
      rw [hsplit, endsBlank_append hne]
      exact endsBlank_of_isAllBlank t.isAllBlank

theorem label?_behindName (col : Nat) : (⟨col, e.behindName ++ tailFromWord e.tail⟩ : Cursor).label?
    = (⟨col + e.behindName.length, tailFromWord e.tail⟩ : Cursor).label? :=
  Cursor.label?_append (.of_not_mem e.no_quote_behindName)
    (noLabel_of_not_mem e.no_bracket_behindName) (e.tail_cases []) col

/-- No label is found before the tail: neither the names nor the number hold one. -/
theorem label?_text (col : Nat) :
    (⟨col, (e.base.written ++ e.behindName) ++ tailFromWord e.tail⟩ : Cursor).label?
      = (⟨col + (e.base.written ++ e.behindName).length, tailFromWord e.tail⟩ : Cursor).label? := by
  rcases e.base.quoted_or_bare with ⟨hquoted, -⟩ | ⟨hbare, hwritten⟩
  · rw [List.append_assoc, Evolution.label?_quoted hquoted, e.label?_behindName, List.length_append,
      Nat.add_assoc]
  · have hnot : ∀ ch, Name.forcesQuotes ch = true → ch ∉ e.behindName →
        ch ∉ e.base.written ++ e.behindName := by
      intro ch hforces hbehind
      rw [hwritten, List.mem_append, not_or]
      exact ⟨hbare.not_mem hforces, hbehind⟩
    exact Cursor.label?_append (.of_not_mem (hnot _ (by decide) e.no_quote_behindName))
      (noLabel_of_not_mem (hnot _ (by decide) e.no_bracket_behindName)) (e.tail_cases _) col

/-! ### The names and the number -/

def stretch (name : Text) : Evolution.Stretch :=
  ⟨[], name, e.inner.text, e.maturity.text, tailBlanks e.tail⟩

theorem stretch_reads {name : Text} (h : Name.IsBare name) :
    (e.stretch name).Reads := by
  have hblanks := isAllBlank_tailBlanks e.tail
  refine ⟨?_, ⟨rfl, e.inner.isAllBlank, h.head, h.last, fun _ => rfl⟩, .inl ⟨e.maturity.isLiteral,
    ?_, startsBlank_of_isAllBlank hblanks, Cursor.numbers_eq_nil_of_isAllBlank hblanks 0⟩⟩
  · have hmem : '"' ∉ tailBlanks e.tail := fun hmem =>
      absurd (isAllBlank_iff.mp hblanks _ hmem) (by decide)
    simp only [Evolution.Stretch.text, stretch, List.nil_append, List.mem_append, not_or]
    exact ⟨h.not_mem (by decide), e.inner.not_mem (by decide),
      Decimal.not_mem_literal e.maturity.isLiteral (by decide), hmem⟩
  · exact (endsBlank_append e.inner.ne_nil).mpr (endsBlank_of_isAllBlank e.inner.isAllBlank)

theorem stretch_token (name : Text) (col : Nat) :
    (e.stretch name).token col = ⟨⟨col, col + name.length⟩, name⟩ := rfl

theorem stretch_maturity? {name : Text} {col : Nat}
    (hcol : col + (name ++ e.inner.text).length = e.numberStart) : (e.stretch name).maturity? col
      = some ⟨⟨e.numberStart, e.numberStop⟩, Decimal.value e.maturity.text⟩ := by
  simp only [Evolution.Stretch.maturity?, stretch, List.nil_append, hcol,
    if_neg (Decimal.literal_ne_nil e.maturity.isLiteral)]
  rfl

theorem behindName_of_none (h : e.successor = none) :
    e.behindName = e.inner.text ++ (e.maturity.text ++ tailBlanks e.tail) := by
  rw [behindName, successorText, h]
  rfl

theorem behindName_of_some {o : Successor} (h : e.successor = some o) : e.behindName
    = o.before.text ++ (Name.arrow ++ (o.after.text ++ (e.stretch o.name.text).text)) := by
  simp only [behindName, successorText, h, Option.map_some, Option.getD_some, Successor.text, stretch,
    Evolution.Stretch.text, List.nil_append, List.append_assoc]

theorem not_mem_of_none (h : e.successor = none) : '>' ∉ e.behindName := by
  have hblanks := isAllBlank_iff.mp (isAllBlank_tailBlanks e.tail)
  rw [e.behindName_of_none h]
  simp only [List.mem_append, not_or]
  exact ⟨e.inner.not_mem (by decide), Decimal.not_mem_literal e.maturity.isLiteral (by decide),
    fun hmem => absurd (hblanks _ hmem) (by decide)⟩

/-- Behind the first name, whichever way it was found, an arrow leads to the rest of the phrase. -/
theorem ofBody_of_successor {o : Successor} (ho : e.successor = some o) {c place : Cursor}
    (spaces : Text)
    (hbase : Evolution.Head.ofCursor c = ⟨⟨⟨e.nameStart, e.nameStop⟩, e.base.text⟩, none, place⟩)
    (hplace : place.rest
      = spaces ++ (Name.arrow ++ (o.after.text ++ (e.stretch o.name.text).text)))
    (hspaces : ∀ ch ∈ spaces, isSpace ch = true)
    (hcol : place.col + spaces.length = e.nameStop + o.before.text.length)
    (label : Option LabelClause) : Evolution.ofBody c label = { e.evolution with label } := by
  have hbare := Name.isBare_iff.mp o.name.no_quoting
  have hhead : ∀ ch ∈ (e.stretch o.name.text).text.head?, isSpace ch = false := fun ch hch =>
    not_isSpace_of_not_isBlank (hbare.head_append o.name.ne_nil _ ch hch)
  let start := e.nameStop + o.before.text.length + 2 + o.after.text.length
  have hnumber : start + (o.name.text ++ e.inner.text).length = e.numberStart := by
    simp only [start, numberStart, successorText, ho, Option.map_some, Option.getD_some,
      Successor.text, Name.arrow, List.length_append, List.length_cons, List.length_nil]
    omega
  obtain ⟨hname, hmaturity⟩ := Evolution.ofOverride_eq (e.stretch_reads hbare) start
  rw [Evolution.ofBody_of_arrow spaces hbase hplace hspaces o.after.isSpace hhead label, hcol]
  change Evolution.mk _ (some ⟨_, (Evolution.Head.ofOverride ⟨start, _⟩).name⟩) _ _ = _
  rw [hname, hmaturity, e.stretch_maturity? hnumber, evolution, ho]
  rfl

theorem numberStart_of_none (h : e.successor = none) :
    e.nameStop + e.inner.text.length = e.numberStart := by
  rw [numberStart, successorText, h]
  rfl

/-- A quoted first name is taken whole, and the override is looked for behind it. -/
theorem ofBody_quoted (hquoted : Name.IsQuoted e.base.written)
    (hdecode : Name.decode e.base.written = e.base.text) (label : Option LabelClause) :
    Evolution.ofBody ⟨e.nameStart, e.base.written ++ e.behindName⟩ label
      = { e.evolution with label } := by
  have hbase := Evolution.Head.ofCursor_quoted hquoted e.nameStart e.behindName
  rw [hdecode] at hbase
  cases ho : e.successor with
  | none =>
      have hnumber := Evolution.maturityAt_of_literal e.inner.isSpace e.maturity.isLiteral
        (startsBlank_of_isAllBlank (isAllBlank_tailBlanks e.tail)) e.nameStop
      rw [← e.behindName_of_none ho, e.numberStart_of_none ho] at hnumber
      rw [Evolution.ofBody_of_not_mem hbase (e.not_mem_of_none ho)]
      change Evolution.mk _ none (Evolution.maturityAt ⟨e.nameStop, e.behindName⟩) label = _
      rw [hnumber, evolution, ho]
      rfl
  | some o =>
      exact e.ofBody_of_successor ho o.before.text hbase (e.behindName_of_some ho) o.before.isSpace rfl
        label

/-- A bare first name ends at the arrow, or at the number where there is no arrow. -/
theorem ofBody_bare (hbare : Name.IsBare e.base.text) (hwritten : e.base.written = e.base.text)
    (label : Option LabelClause) :
    Evolution.ofBody ⟨e.nameStart, e.base.written ++ e.behindName⟩ label
      = { e.evolution with label } := by
  have hnoArrow : Name.NoArrow e.base.text := Name.find?_arrow_eq_none_iff.mp hbare.no_arrow
  have hstop : e.nameStart + e.base.text.length = e.nameStop := by
    rw [nameStop, hwritten]
  cases ho : e.successor with
  | none =>
      have htext : e.base.written ++ e.behindName
          = Evolution.frontText none ++ (e.stretch e.base.text).text := by
        rw [e.behindName_of_none ho, hwritten]
        rfl
      have hleads : Evolution.Leads none (e.stretch e.base.text).text := by
        have hbehind := e.not_mem_of_none ho
        change Name.NoArrow (e.base.text ++ (e.inner.text ++ (e.maturity.text ++ tailBlanks e.tail)))
        rw [← e.behindName_of_none ho]
        exact hnoArrow.append (Name.noArrow_of_not_mem hbehind) fun _ hhead =>
          hbehind (List.mem_of_head? hhead)
      have hnumber : e.nameStart + (e.base.text ++ e.inner.text).length = e.numberStart := by
        rw [List.length_append, ← Nat.add_assoc, hstop, e.numberStart_of_none ho]
      rw [htext, Evolution.ofBody_eq (e.stretch_reads hbare) hleads]
      change Evolution.mk ((e.stretch e.base.text).token e.nameStart) none
        ((e.stretch e.base.text).maturity? e.nameStart) label = _
      rw [stretch_token, e.stretch_maturity? hnumber, hstop, evolution, ho]
      rfl
  | some o =>
      let f : Evolution.Front := ⟨[], e.base.text, o.before.text, o.after.text⟩
      have hup : f.upToArrow = e.base.text ++ o.before.text := rfl
      have hf : f.Reads := by
        refine ⟨?_, ⟨rfl, o.before.isAllBlank, hbare.head, hbare.last, fun _ => rfl⟩, ?_, o.after.isSpace⟩
        · rw [hup, List.mem_append, not_or]
          exact ⟨hbare.not_mem (by decide), o.before.not_mem (by decide)⟩
        · have hspaces : '>' ∉ o.before.text := o.before.not_mem (by decide)
          rw [hup]
          exact hnoArrow.append (Name.noArrow_of_not_mem hspaces) fun _ hhead =>
            hspaces (List.mem_of_head? hhead)
      have htext : e.base.written ++ e.behindName = f.text ++ (e.stretch o.name.text).text := by
        rw [e.behindName_of_some ho, hwritten, Evolution.Front.text, hup]
        simp only [f, List.append_assoc]
      have htoken : f.token e.nameStart = ⟨⟨e.nameStart, e.nameStop⟩, e.base.text⟩ := by
        rw [← hstop]
        rfl
      have hbase := hf.head_eq e.nameStart (e.stretch o.name.text).text
      rw [htoken] at hbase
      rw [htext]
      refine e.ofBody_of_successor ho [] hbase rfl (by simp) ?_ label
      rw [hup, List.length_append, ← Nat.add_assoc, hstop]
      rfl

theorem ofBody_text (label : Option LabelClause) :
    Evolution.ofBody ⟨e.nameStart, e.base.written ++ e.behindName⟩ label
      = { e.evolution with label } := by
  rcases e.base.quoted_or_bare with ⟨hquoted, hdecode⟩ | ⟨hbare, hwritten⟩
  · exact e.ofBody_quoted hquoted hdecode label
  · exact e.ofBody_bare hbare hwritten label

theorem ofLine?_text : Statement.ofLine? .evolve e.text = some e.statement := by
  have htext : e.text = (e.lead.text ++ (Kind.keyword .evolve ++ e.gap.text)) ++
      ((e.base.written ++ e.behindName) ++ tailFromWord e.tail) := by
    simp only [text, behindName, tailText_eq, List.append_assoc]
  have hopens : Kind.Opens .evolve e.text e.lead.text e.gap.text
      ⟨e.nameStart, (e.base.written ++ e.behindName) ++ tailFromWord e.tail⟩ := by
    refine ⟨Cursor.passes_ofLine_iff.mpr ⟨htext, ?_⟩, e.lead.isSpace, e.gap.isSpace, ?_,
      .inl e.gap.ne_nil⟩
    · simp only [nameStart, List.length_append, Nat.add_assoc]
    · rw [List.append_assoc]
      exact e.base.head_written _
  have htail : tailFromWord e.tail = [] ∨ StartsLabel (tailFromWord e.tail) :=
    (e.tail_cases []).imp_right And.right
  have hlabel : (⟨e.nameStart + (e.base.written ++ e.behindName).length, tailFromWord e.tail⟩
      : Cursor).label? = e.tail.map (LabelTail.clause e.numberStop) := by
    have hcol : e.nameStart + (e.base.written ++ e.behindName).length
        = e.numberStop + (tailBlanks e.tail).length := by
      simp only [behindName, numberStop, numberStart, nameStop, List.length_append]
      omega
    rw [hcol, label?_tailFromWord]
  have hread : Evolution.ofLine? e.text = some e.evolution := by
    rw [Evolution.ofLine?, hopens.map_open? Evolution.ofCursor,
      Evolution.ofCursor_of_label? (e.label?_text e.nameStart) htail, ofBody_text, hlabel]
    rfl
  rw [Statement.ofLine?, hread]
  rfl

end EvolutionPhrase

end Grammar

end WardleyMap
