import WardleyMap.Proofs.Grammar.Part
import WardleyMap.Proofs.Statement.Placement

/-!
# Phrases of placements and regions

A placement is printed from its name, its coordinates and the label with what follows it; a region from its
corners and any text behind them. Columns in what a phrase says are sums of the lengths of the parts in
front, and reading the printed line gives these columns back.
-/

namespace WardleyMap

namespace Grammar

/-- A line of a kind that has a name and a pair of coordinates. -/
structure PlacementPhrase where
  kind : Kind
  isPlacement : kind.isPlacement = true
  lead : Spaces
  gap : Gap
  name : GivenName
  inner : Spaces
  first : Field
  second : Field
  tail : Option LabelTail

namespace PlacementPhrase

variable (p : PlacementPhrase)

def text : Text :=
  p.lead.text ++ (p.kind.keyword ++ (p.gap.text ++ (p.name.written ++
    (p.inner.text ++ (Field.bracketed [p.first, p.second] ++ tailText p.tail)))))

def nameStart : Nat :=
  p.lead.text.length + p.kind.keyword.length + p.gap.text.length

def nameStop : Nat :=
  p.nameStart + p.name.written.length

def bracketStart : Nat :=
  p.nameStop + p.inner.text.length

def bracketStop : Nat :=
  p.bracketStart + (Field.bracketed [p.first, p.second]).length

def statement : Statement :=
  .placement ⟨p.kind, ⟨⟨p.nameStart, p.nameStop⟩, p.name.text⟩,
    some (Field.bracket p.bracketStart [p.first, p.second]), p.tail.map (LabelTail.clause p.bracketStop)⟩

def layout : Placement.Layout :=
  ⟨p.lead.text, p.gap.text, [], p.name.written, p.name.text, p.inner.text, p.first, p.second,
    tailText p.tail⟩

theorem layout_reads : p.layout.Reads p.kind := by
  refine ⟨p.lead.isSpace, p.gap.isSpace, p.inner.isSpace, p.name.head_written _, .inl p.gap.ne_nil, ?_⟩
  refine p.name.placement_written p.inner.isSpace fun ch hch => ?_
  simpa [Placement.Layout.coordinates, Field.bracketed] using hch.symm

theorem ofLine?_text : Statement.ofLine? p.kind p.text = some p.statement := by
  have hline : p.layout.line p.kind = p.text := by
    simp only [Placement.Layout.line, Placement.Layout.opening, Placement.Layout.behind,
      Placement.Layout.coordinates, layout, text, List.append_assoc, List.nil_append]
  have hstart : p.layout.nameStart p.kind = p.nameStart := by
    simp only [Placement.Layout.nameStart, Placement.Layout.opening, layout, nameStart,
      List.length_append, List.length_nil]
    omega
  have hplacement : .placement (p.layout.placement p.kind) = p.statement := by
    simp only [Placement.Layout.placement, Placement.Layout.nameStop, Placement.Layout.bracketStart,
      Placement.Layout.afterBracket, hstart]
    simp only [layout, statement, label?_tailText, nameStop, bracketStart, bracketStop,
      Placement.Layout.coordinates]
  rw [Statement.ofLine?_placement p.isPlacement, ← hline, p.layout_reads.ofLine?_eq, Option.map_some,
    hplacement]

end PlacementPhrase

/-- A line of a region: four numbers and any text behind them. -/
structure RegionPhrase where
  kind : Kind
  isRegion : kind.isRegion = true
  lead : Spaces
  gap : Spaces
  fields : List Field
  length_fields : fields.length = 4
  tail : Text

namespace RegionPhrase

variable (r : RegionPhrase)

def text : Text :=
  r.lead.text ++ (r.kind.keyword ++ (r.gap.text ++ (Field.bracketed r.fields ++ r.tail)))

def keywordStop : Nat :=
  r.lead.text.length + r.kind.keyword.length

def statement : Statement :=
  .region ⟨r.kind, r.keywordStop, some (Field.bracket (r.keywordStop + r.gap.text.length) r.fields)⟩

theorem ofLine?_text : Statement.ofLine? r.kind r.text = some r.statement := by
  have htext : r.text = r.lead.text ++ (r.kind.keyword ++ r.gap.text)
      ++ (Field.bracketed r.fields ++ r.tail) := by
    simp only [text, List.append_assoc]
  rw [htext, Statement.ofLine?_region r.isRegion,
    Region.ofLine?_bracketed r.kind r.lead.isSpace r.gap.isSpace r.length_fields]
  simp only [statement, keywordStop, List.length_append, Nat.add_assoc, Option.map_some]

end RegionPhrase

end Grammar

end WardleyMap
