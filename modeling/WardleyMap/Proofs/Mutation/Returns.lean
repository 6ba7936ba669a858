import WardleyMap.Proofs.Document.Returns
import WardleyMap.Proofs.Edit.Content
import WardleyMap.Proofs.Mutation.Run

/-!
# Map texts in either form

Whether the lines of a map text end in line feeds alone or in carriage returns and line feeds makes no difference
to a mutation: it is refused, changes nothing or changes a line in both forms alike, and the two results are
the same text in the two forms. This holds of evolved components as well, whose line is looked for in the whole
document, since the two documents have the same contents line by line.
-/

namespace WardleyMap

def Outcome.mapText (f : Text → Text) : Outcome → Outcome
  | changed text => changed (f text)
  | unchanged => unchanged

theorem Document.evolutionLine_congr {a b : Document} (h : a.contents = b.contents) :
    a.evolutionLine = b.evolutionLine := by
  funext name tracked
  simp only [evolutionLine, trackedLine?, findEvolution, locate_congr h, findStatement_congr h]

namespace Mutation

variable {doc a b : Document}

/-- Which edit a mutation comes to, and on which line, is decided by the contents of the lines. -/
theorem resolve_congr (mutation : Mutation) (config : Config) (h : a.contents = b.contents) :
    mutation.resolve a config = mutation.resolve b config := by
  cases mutation with
  | rename | move | setLabel =>
      simp only [resolve, Element.evolutionLine, Document.evolutionLine_congr h]
  | resizeRegion | setRange | setText => rfl

/-- Carrying out a mutation keeps the carriage returns at the ends of the lines and depends on none of them. -/
theorem applyTo_withReturns (mutation : Mutation) (config : Config) (h : doc.IsFeedOnly) :
    mutation.applyTo doc.withReturns config
      = (mutation.applyTo doc config).map Document.withReturns := by
  have hcontents := Document.contents_withReturns h
  rw [applyTo, applyTo, resolve_congr mutation config hcontents]
  cases mutation.resolve doc config with
  | error refusal => rfl
  | ok found =>
      obtain ⟨n, edit⟩ := found
      dsimp only
      rw [Document.edit_eq_rewrite, Document.edit_eq_rewrite, Document.line?_congr hcontents]
      cases edit.rewrite config n (doc.line? n) with
      | error cause => rfl
      | ok new =>
          simp only [Except.map, Except.mapError, Document.withLine?_withReturns h, Option.getD_map]

/-- A mutation takes a map text with carriage returns before its line feeds to what it takes the text without
them to, with carriage returns before its line feeds. -/
theorem apply_withReturns {text : Text} (h : '\r' ∉ text) (mutation : Mutation) (config : Config) :
    mutation.apply text.withReturns config
      = (mutation.apply text config).map (Outcome.mapText Text.withReturns) := by
  have happly := applyTo_withReturns mutation config (Document.isFeedOnly_ofText h)
  simp only [apply, Document.ofText_withReturns, happly]
  cases hupdated : mutation.applyTo (.ofText text) config with
  | error refusal => rfl
  | ok updated =>
      have hcut := isCut_of_applyTo (Document.isCut_ofText text) hupdated
      -- Both runs agree on whether anything has changed, because `withReturns` is injective.
      simp only [Except.map, Document.withReturns_injective.eq_iff, hcut.toText_withReturns]
      by_cases hsame : updated = .ofText text
      · rw [if_pos hsame, if_pos hsame, Outcome.mapText]
      · rw [if_neg hsame, if_neg hsame, Outcome.mapText]

theorem apply_withReturns_evolved :
    let text : Text := "component A [0.5, 0.5]\nevolve A 0.7\nnote N [0.1, 0.1]".toList
    let returned : Text := "component A [0.5, 0.5]\r\nevolve A 0.7\r\nnote N [0.1, 0.1]".toList
    let mutation : Mutation := .rename ⟨.component, ['A'], some 1, .evolved none⟩ "B\r\nC".toList
    let next : Text := "component A [0.5, 0.5]\r\nevolve A->\"B\\nC\" 0.7\r\nnote N [0.1, 0.1]".toList
    '\r' ∉ text ∧ text.withReturns = returned ∧ mutation.apply returned {} = .ok (.changed next) := by
  intro text returned mutation next
  have hreturn : '\r' ∉ text := by decide +kernel
  have hreturned : text.withReturns = returned := by decide +kernel
  have hnext : (mutation.apply text {}).map (Outcome.mapText Text.withReturns)
      = .ok (.changed next) := by decide +kernel
  refine ⟨hreturn, hreturned, ?_⟩
  rw [← hreturned, apply_withReturns hreturn, hnext]

end Mutation

end WardleyMap
