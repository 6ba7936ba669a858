import Mathlib.Data.List.Pairwise
import WardleyMap.Proofs.Edit.Basic

/-!
# Edits one after another

Several edits of one line come to one change of its content, since each of them writes the whole line.
If the line can be given in parts, such that every edit changes some of the parts and no two edits get into
each other's way, then the order of the edits does not matter: `Document.editAll_perm`.
-/

namespace WardleyMap

/-- The edit finds its statement in the content `text` of a line and turns the content into `text'`. -/
def Edit.Turns (edit : Edit) (config : Config) (text text' : Text) : Prop :=
  edit.unsupported? = none ∧ ∃ statement rs, Statement.ofLine? edit.kind text = some statement ∧
    edit.plan? config.precision text statement = some rs ∧ Replacement.applyAll rs text = text'

namespace Document

def editAll (doc : Document) (n : Nat) (calls : List (Config × Edit)) : Except EditError Document :=
  calls.foldlM (fun doc call => doc.edit call.1 n call.2) doc

variable {doc : Document} {config : Config} {n : Nat} {edit : Edit} {text text' : Text}

theorem edit_of_turns (hline : doc.line? n = some text) (h : edit.Turns config text text') :
    ∃ doc', doc.edit config n edit = .ok doc' ∧ doc'.line? n = some text' ∧
      ∀ later, doc'.withLine? n later = doc.withLine? n later := by
  obtain ⟨hsupported, statement, rs, hstatement, hplan, rfl⟩ := h
  obtain ⟨doc', hdoc⟩ := exists_withLine? hline (Replacement.applyAll rs text)
  have hfits := Edit.fits_of_plan? hstatement hplan
  exact ⟨doc', edit_eq_ok_iff.mpr ⟨hsupported, text, statement, rs, hline, hstatement, hplan, hdoc⟩,
    line?_of_withLine? hdoc hline hfits, withLine?_withLine? hdoc hline hfits⟩

section Parts

variable {Parts : Type} {line : Parts → Text} {Reads : Parts → Prop}
  {change : Parts → Config × Edit → Parts} {calls : List (Config × Edit)} {parts : Parts}

/-- Edits that change the parts of a line come to writing the line with all the changes made. -/
theorem editAll_of_turns
    (hturns : ∀ call ∈ calls, ∀ parts, Reads parts → Reads (change parts call) ∧
      call.2.Turns call.1 (line parts) (line (change parts call)))
    (hreads : Reads parts) (hline : doc.line? n = some (line parts)) :
    ∃ doc', doc.editAll n calls = .ok doc' ∧
      doc.withLine? n (line (calls.foldl change parts)) = some doc' := by
  induction calls generalizing doc parts with
  | nil => exact ⟨doc, rfl, withLine?_self hline⟩
  | cons call calls ih =>
      obtain ⟨hreads₁, hturn⟩ := hturns call List.mem_cons_self parts hreads
      obtain ⟨doc₁, hedit, hline₁, hlater⟩ := edit_of_turns hline hturn
      obtain ⟨doc', hedits, hwith⟩ :=
        ih (fun other hother => hturns other (List.mem_cons_of_mem _ hother)) hreads₁ hline₁
      refine ⟨doc', ?_, (hlater _).symm.trans hwith⟩
      rw [editAll, List.foldlM_cons, hedit]
      exact hedits

/-- Edits whose changes commute give one document in every order. -/
theorem editAll_perm
    (hturns : ∀ call ∈ calls, ∀ parts, Reads parts → Reads (change parts call) ∧
      call.2.Turns call.1 (line parts) (line (change parts call)))
    (hcommutes : calls.Pairwise fun a b => ∀ parts, change (change parts a) b = change (change parts b) a)
    (hreads : Reads parts) (hline : doc.line? n = some (line parts)) :
    ∃ doc', ∀ order, order.Perm calls → doc.editAll n order = .ok doc' := by
  obtain ⟨doc', -, hwith⟩ := editAll_of_turns hturns hreads hline
  have hall := hcommutes.forall_of_forall_of_flip (fun _ _ _ => rfl)
    (hcommutes.imp fun h parts => (h parts).symm)
  refine ⟨doc', fun order horder => ?_⟩
  have hsame : order.foldl change parts = calls.foldl change parts :=
    horder.foldl_eq' (fun a ha b hb parts => hall (horder.subset ha) (horder.subset hb) parts) parts
  obtain ⟨doc₁, hedits, hwith₁⟩ := @editAll_of_turns doc n _ line Reads change order parts
    (fun call hcall => hturns call (horder.subset hcall)) hreads hline
  rw [hsame, hwith] at hwith₁
  rw [hedits, Option.some.inj hwith₁]

end Parts

end Document

end WardleyMap
