import WardleyMap.Proofs.Grammar.Annotation
import WardleyMap.Proofs.Grammar.Evolution
import WardleyMap.Proofs.Grammar.Placement

/-!
# Reading undoes printing

A phrase is a line of any kind as the grammar builds it. What is printed for it is read as what it says,
with every part where it was printed, whatever stands behind the last part that is read.
-/

namespace WardleyMap

namespace Grammar

/-- A line of the map as the grammar builds it. -/
inductive Phrase where
  | placement (p : PlacementPhrase)
  | region (r : RegionPhrase)
  | annotation (a : AnnotationPhrase)
  | evolution (e : EvolutionPhrase)

namespace Phrase

def kind : Phrase → Kind
  | placement p => p.kind
  | region r => r.kind
  | annotation _ => Kind.annotation
  | evolution _ => .evolve

def text : Phrase → Text
  | placement p => p.text
  | region r => r.text
  | annotation a => a.text
  | evolution e => e.text

def statement : Phrase → Statement
  | placement p => p.statement
  | region r => r.statement
  | annotation a => a.statement
  | evolution e => e.statement

/-- The line that is printed for a phrase is read as the statement that the phrase makes: every name and every
number with its value and its span, and nothing that the phrase does not have. -/
theorem ofLine?_printed (phrase : Phrase) :
    Statement.ofLine? phrase.kind phrase.text = some phrase.statement := by
  cases phrase with
  | placement p => exact p.ofLine?_text
  | region r => exact r.ofLine?_text
  | annotation a => exact a.ofLine?_text
  | evolution e => exact e.ofLine?_text

/-- A line of each form, printed from its parts: a name with a bracket in it, which needs quotes; a region with a
tail that is not read; a group of two points with a remark; and both names of an evolved component in front of a
label. -/
theorem ofLine?_printed_each :
    let placed : Text := "note \"a [1]\" [0.5, -.5]  label [1, 2] x".toList
    let region : Text := "\tpioneers[1, 2, 3, 4.] tail".toList
    let remarked : Text := "annotation 7 [[1, 2], [3, 4]] see".toList
    let evolved : Text := "evolve a->b c 0.8 label [1, 2]".toList
    Statement.ofLine? .note placed = some (.placement ⟨.note, ⟨⟨5, 12⟩, "a [1]".toList⟩,
      some ⟨⟨13, 23⟩, [⟨⟨14, 17⟩, Decimal.value "0.5".toList⟩, ⟨⟨19, 22⟩, Decimal.value "-.5".toList⟩]⟩,
      some ⟨⟨25, 37⟩, ⟨⟨32, 33⟩, Decimal.value "1".toList⟩, ⟨⟨35, 36⟩, Decimal.value "2".toList⟩⟩⟩) ∧
    Statement.ofLine? .pioneers region = some (.region ⟨.pioneers, 9, some ⟨⟨9, 22⟩,
      [⟨⟨10, 11⟩, Decimal.value "1".toList⟩, ⟨⟨13, 14⟩, Decimal.value "2".toList⟩,
        ⟨⟨16, 17⟩, Decimal.value "3".toList⟩, ⟨⟨19, 21⟩, Decimal.value "4.".toList⟩]⟩⟩) ∧
    Statement.ofLine? Kind.annotation remarked = some (Statement.annotation
      ⟨⟨⟨11, 12⟩, Decimal.value "7".toList⟩, some ⟨13, 29⟩, some ⟨30, 33⟩⟩) ∧
    Statement.ofLine? .evolve evolved = some (.evolution ⟨⟨⟨7, 8⟩, "a".toList⟩,
      some ⟨⟨8, 10⟩, ⟨⟨10, 13⟩, "b c".toList⟩⟩, some ⟨⟨14, 17⟩, Decimal.value "0.8".toList⟩,
      some ⟨⟨18, 30⟩, ⟨⟨25, 26⟩, Decimal.value "1".toList⟩, ⟨⟨28, 29⟩, Decimal.value "2".toList⟩⟩⟩) := by
  intro placed region remarked evolved
  have hplaced := ofLine?_printed (.placement ⟨.note, rfl, .none, .space,
    ⟨"a [1]".toList, by decide, by decide, by decide⟩, .one,
    .plain "0.5".toList (by decide), .spaced "-.5".toList (by decide),
    some ⟨"  ".toList, by decide, .one, .plain "1".toList (by decide), .spaced "2".toList (by decide),
      " x".toList⟩⟩)
  have hregion := ofLine?_printed (.region ⟨.pioneers, rfl, ⟨['\t'], List.forall_mem_singleton.mpr rfl⟩, .none,
    [.plain "1".toList (by decide), .spaced "2".toList (by decide), .spaced "3".toList (by decide),
      .spaced "4.".toList (by decide)], rfl, " tail".toList⟩)
  have hremarked := ofLine?_printed (Phrase.annotation ⟨.none, .space, ⟨"7".toList, by decide⟩, .one,
    .group ⟨.none, .plain "1".toList (by decide), .spaced "2".toList (by decide), .none⟩
      [⟨.one, .plain "3".toList (by decide), .spaced "4".toList (by decide), .none⟩], " see".toList⟩)
  have hevolved := ofLine?_printed (.evolution ⟨.none, .space, ⟨"a".toList, by decide, by decide, by decide⟩,
    some ⟨.none, .none, ⟨"b c".toList, by decide, by decide⟩⟩, .space, ⟨"0.8".toList, by decide⟩,
    some ⟨" ".toList, by decide, .one, .plain "1".toList (by decide), .spaced "2".toList (by decide), []⟩,
    by simp⟩)
  exact ⟨hplaced, hregion, hremarked, hevolved⟩

end Phrase

end Grammar

end WardleyMap
