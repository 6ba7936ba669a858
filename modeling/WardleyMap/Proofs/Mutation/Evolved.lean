import WardleyMap.Proofs.Document.Search
import WardleyMap.Proofs.Mutation.Run

/-!
# Changes of evolved components

Renaming, moving and labelling an evolved component all come to one edit of one `evolve` line, and which line
that is depends on the tracked line and the names alone. Once the line is found nothing can go wrong: it
holds an `evolve` statement, and every edit of one has a plan. So a change is refused in two cases only,
if the model knows no line of the element and if no line has the name.

The name of an evolved component is the one that it evolves from. A line is found by either of its names,
so the line of a component that evolves to the name can be taken for that of the component that evolves
from it. `Document.Misleads` says when, and then the edit lands on the statement of the other one.
-/

namespace WardleyMap

/-- A change of an evolved component: the element, the line that the model tracks for it, and the edit that
its line gets. -/
structure EvolvedChange where
  element : Element
  tracked : Option Nat
  edit : Edit

def Element.evolvedChange? (element : Element) (edit : Edit) : Option EvolvedChange :=
  match element.form with
  | .placed => none
  | .evolved tracked => some ⟨element, tracked, edit⟩

namespace Mutation

def evolvedChange? : Mutation → Option EvolvedChange
  | rename element newName => element.evolvedChange? (.setOverride element.name newName)
  | move element position => element.evolvedChange? (.moveEvolution element.name position.maturity)
  | setLabel element offset => element.evolvedChange? (.setLabel .evolve element.name offset)
  | resizeRegion _ _ _ | setRange _ _ _ | setText _ _ => none

/-- The mutation comes to the edit of line `n`: the edit is made, no other line is touched, and the outcome
says whether it made a difference. -/
def IsEditOf (mutation : Mutation) (text : Text) (config : Config) (n : Nat) (edit : Edit) : Prop :=
  ∃ doc', (Document.ofText text).edit config n edit = .ok doc' ∧
    (∀ m, m ≠ n → doc'.stored? m = (Document.ofText text).stored? m) ∧
    mutation.apply text config
      = .ok (if doc' = .ofText text then .unchanged else .changed doc'.toText)

variable {mutation : Mutation} {change : EvolvedChange} {text next : Text} {config : Config}

/-- The mutation is one of three, and each says which edit it comes to. -/
theorem evolvedChange?_cases (h : mutation.evolvedChange? = some change) :
    change.element.form = .evolved change.tracked ∧
      ((∃ newName, mutation = rename change.element newName ∧
          change.edit = .setOverride change.element.name newName) ∨
        (∃ position, mutation = move change.element position ∧
          change.edit = .moveEvolution change.element.name position.maturity) ∨
        (∃ offset, mutation = setLabel change.element offset ∧
          change.edit = .setLabel .evolve change.element.name offset)) := by
  have helement {element : Element} {edit : Edit} (h : element.evolvedChange? edit = some change) :
      change.element = element ∧ change.edit = edit ∧
        change.element.form = .evolved change.tracked := by
    unfold Element.evolvedChange? at h
    split at h
    · simp at h
    · next tracked hform =>
        obtain rfl := Option.some.inj h
        exact ⟨rfl, rfl, hform⟩
  cases mutation with
  | rename element newName =>
      obtain ⟨rfl, hedit, hform⟩ := helement h
      exact ⟨hform, Or.inl ⟨newName, rfl, hedit⟩⟩
  | move element position =>
      obtain ⟨rfl, hedit, hform⟩ := helement h
      exact ⟨hform, Or.inr (Or.inl ⟨position, rfl, hedit⟩)⟩
  | setLabel element offset =>
      obtain ⟨rfl, hedit, hform⟩ := helement h
      exact ⟨hform, Or.inr (Or.inr ⟨offset, rfl, hedit⟩)⟩
  | resizeRegion element bounds viewport => simp [evolvedChange?] at h
  | setRange element start stop => simp [evolvedChange?] at h
  | setText line text => simp [evolvedChange?] at h

theorem resolve_evolved (h : mutation.evolvedChange? = some change) (doc : Document) :
    mutation.resolve doc config
      = (change.element.evolutionLine doc change.tracked).map (·, change.edit) := by
  obtain ⟨hform, ⟨newName, rfl, hedit⟩ | ⟨position, rfl, hedit⟩ | ⟨offset, rfl, hedit⟩⟩ :=
    evolvedChange?_cases h
  all_goals simp only [resolve, hform, hedit]

theorem addressed?_evolved (h : mutation.evolvedChange? = some change) (doc : Document) :
    mutation.addressed? doc = (doc.evolutionLine change.element.name change.tracked).toOption := by
  obtain ⟨hform, ⟨newName, rfl, -⟩ | ⟨position, rfl, -⟩ | ⟨offset, rfl, -⟩⟩ := evolvedChange?_cases h
  all_goals simp only [addressed?, Element.addressed?, hform]

/-- The edits of evolved components can be made of every `evolve` statement. -/
theorem exists_plan?_evolved (h : mutation.evolvedChange? = some change) :
    change.edit.kind = .evolve ∧ change.edit.unsupported? = none ∧
      ∀ precision line e, ∃ rs, change.edit.plan? precision line (.evolution e) = some rs := by
  obtain ⟨-, ⟨newName, -, hedit⟩ | ⟨position, -, hedit⟩ | ⟨offset, -, hedit⟩⟩ := evolvedChange?_cases h
  all_goals
    rw [hedit]
    exact ⟨rfl, rfl, fun precision line e => ⟨_, rfl⟩⟩

theorem apply_of_resolve_error {refusal : Refusal}
    (h : mutation.resolve (.ofText text) config = .error refusal) :
    mutation.apply text config = .error refusal := by
  simp only [apply, applyTo, h]
  rfl

/-- On a line that has the name the edit is made. -/
theorem isEditOf_of_evolves (h : mutation.evolvedChange? = some change) {n : Nat}
    (hresolve : mutation.resolve (.ofText text) config = .ok (n, change.edit))
    (hevolves : (Document.ofText text).Evolves change.element.name n) :
    mutation.IsEditOf text config n change.edit := by
  obtain ⟨content, e, hcontent, he, -⟩ := hevolves
  obtain ⟨hkind, hsupported, hplans⟩ := exists_plan?_evolved h
  obtain ⟨rs, hplan⟩ := hplans config.precision content e
  have hstatement : Statement.ofLine? change.edit.kind content = some (.evolution e) := by
    rw [hkind]
    exact congrArg (Option.map Statement.evolution) he
  obtain ⟨doc', hedit, hwrites⟩ := Document.exists_edit hsupported hcontent hstatement hplan
  refine ⟨doc', hedit, hwrites.others, ?_⟩
  simp only [apply, applyTo, hresolve, hedit]
  rfl

/-- A change of an evolved component is refused because no line of it is known, or because no line has its
name, or it is the edit of the line that is found. -/
theorem apply_evolved_cases (h : mutation.evolvedChange? = some change) (text : Text)
    (config : Config) :
    let doc := Document.ofText text
    let name := change.element.name
    let unknown := change.element.line = none ∧ change.tracked = none
    (unknown ∧ mutation.apply text config = .error .noLine) ∨
    (¬unknown ∧ (∀ n, ¬doc.Evolves name n) ∧
      mutation.apply text config = .error (.noEvolution name)) ∨
    (¬unknown ∧ ∃ n, doc.evolutionLine name change.tracked = .ok n ∧ doc.Evolves name n ∧
      mutation.IsEditOf text config n change.edit) := by
  intro doc name unknown
  have hresolve := @resolve_evolved mutation change config h doc
  unfold Element.evolutionLine at hresolve
  by_cases hnone : unknown
  · rw [if_pos (by simpa [unknown] using hnone)] at hresolve
    exact Or.inl ⟨hnone, apply_of_resolve_error hresolve⟩
  · rw [if_neg (by simpa [unknown] using hnone)] at hresolve
    cases hline : doc.evolutionLine name change.tracked with
    | error refusal =>
        obtain ⟨rfl, hnever⟩ := Document.evolutionLine_eq_error_iff.mp hline
        rw [hline] at hresolve
        exact Or.inr (Or.inl ⟨hnone, hnever, apply_of_resolve_error hresolve⟩)
    | ok n =>
        have hevolves := Document.evolves_of_evolutionLine hline
        rw [hline] at hresolve
        exact Or.inr (Or.inr ⟨hnone, n, rfl, hevolves, isEditOf_of_evolves h hresolve hevolves⟩)

/-- What becomes of a change of an evolved component: it is refused if no line of the element is known,
and if no line has its name; otherwise it is the edit of the tracked line, if that has the name, and else
of the first line that does. -/
theorem apply_evolved (h : mutation.evolvedChange? = some change) (text : Text) (config : Config) :
    let doc := Document.ofText text
    let name := change.element.name
    let unknown := change.element.line = none ∧ change.tracked = none
    let result := mutation.apply text config
    (result = .error .noLine ↔ unknown) ∧
    (result = .error (.noEvolution name) ↔ ¬unknown ∧ ∀ n, ¬doc.Evolves name n) ∧
    (∀ refusal, result = .error refusal → (refusal = .noLine ∨ refusal = .noEvolution name) ∧
      (refusal.isUserVisible = true ↔ refusal = .noEvolution name)) ∧
    (¬unknown →
      (∀ n ∈ change.tracked, doc.Evolves name n → mutation.IsEditOf text config n change.edit) ∧
      ((∀ n ∈ change.tracked, ¬doc.Evolves name n) → ∀ n, IsLeast {m | doc.Evolves name m} n →
        mutation.IsEditOf text config n change.edit)) := by
  intro doc name unknown result
  rcases apply_evolved_cases h text config with ⟨hnone, hresult⟩ | ⟨hknown, hnever, hresult⟩ |
      ⟨hknown, n, hline, hevolves, hedit⟩
  · change result = _ at hresult
    refine ⟨iff_of_true hresult hnone, ?_, fun refusal hrefusal => ?_, fun hknown => absurd hnone hknown⟩
    · rw [hresult]
      exact iff_of_false (by simp) fun hother => hother.1 hnone
    · obtain rfl := Except.error.inj (hresult.symm.trans hrefusal)
      exact ⟨Or.inl rfl, by simp [Refusal.isUserVisible]⟩
  · change result = _ at hresult
    refine ⟨?_, iff_of_true hresult ⟨hknown, hnever⟩, fun refusal hrefusal => ?_, fun _ =>
      ⟨fun n _ hn => absurd hn (hnever n), fun _ n hn => absurd hn.1 (hnever n)⟩⟩
    · rw [hresult]
      exact iff_of_false (by simp) hknown
    · obtain rfl := Except.error.inj (hresult.symm.trans hrefusal)
      exact ⟨Or.inr rfl, iff_of_true rfl rfl⟩
  · obtain ⟨doc', -, -, hresult⟩ := id hedit
    change result = _ at hresult
    have hfound {m : Nat} (hm : doc.evolutionLine name change.tracked = .ok m) :
        mutation.IsEditOf text config m change.edit := by
      rw [← Except.ok.inj (hline.symm.trans hm)]
      exact hedit
    refine ⟨?_, ?_, fun refusal hrefusal => ?_, fun _ => ⟨fun m hm hname => ?_, fun hnone m hm => ?_⟩⟩
    · rw [hresult]
      exact iff_of_false (by simp) hknown
    · rw [hresult]
      exact iff_of_false (by simp) fun hother => hother.2 n hevolves
    · simp [hresult] at hrefusal
    · exact hfound (Document.evolutionLine_eq_ok_iff.mpr (Or.inl ⟨hm, hname⟩))
    · exact hfound (Document.evolutionLine_eq_ok_iff.mpr (Or.inr ⟨hnone, hm⟩))

/-- The tracked line no longer has the name, so the first line that has it gets the new one. -/
theorem apply_evolved_drifted :
    let text : Text := "title T\nevolve A->B 0.5\nevolve A 0.7".toList
    let mutation : Mutation := .rename ⟨.component, ['A'], some 1, .evolved (some 1)⟩ ['C']
    let next : Text := "title T\nevolve A->C 0.5\nevolve A 0.7".toList
    (∀ m ∈ some 1, ¬(Document.ofText text).Evolves ['A'] m) ∧
      IsLeast {m | (Document.ofText text).Evolves ['A'] m} 2 ∧
      mutation.IsEditOf text {} 2 (.setOverride ['A'] ['C']) ∧
      mutation.apply text {} = .ok (.changed next) ∧
      (Document.ofText next).line? 2 = some "evolve A->C 0.5".toList := by
  intro text mutation next
  have hline : (Document.ofText text).evolutionLine ['A'] (some 1) = .ok 2 := by decide +kernel
  have hnext : mutation.apply text {} = .ok (.changed next) := by decide +kernel
  have hwritten : (Document.ofText next).line? 2 = some "evolve A->C 0.5".toList := by decide +kernel
  rcases Document.evolutionLine_eq_ok_iff.mp hline with ⟨hsame, -⟩ | ⟨hnone, hleast⟩
  · simp at hsame
  · have h := @apply_evolved mutation _ rfl text {}
    exact ⟨hnone, hleast, (h.2.2.2 (by simp)).2 hnone 2 hleast, hnext, hwritten⟩

/-! ### Statements of other components -/

/-- A change of an evolved component is made on a line that has its name, and that line says what the
component itself evolves to exactly if the document does not mislead. -/
theorem apply_evolved_changed (h : mutation.evolvedChange? = some change)
    (hchanged : mutation.apply text config = .ok (.changed next)) :
    let doc := Document.ofText text
    let name := change.element.name
    ∃ n, Document.ChangesOnly n doc (.ofText next) ∧ doc.Evolves name n ∧
      (doc.EvolvesFrom name n ↔ ¬doc.Misleads name change.tracked) := by
  intro doc name
  obtain ⟨-, n, haddressed, hchanges⟩ := changesOnly_of_apply hchanged
  rw [addressed?_evolved h] at haddressed
  have hline : doc.evolutionLine name change.tracked = .ok n := by
    cases hline : doc.evolutionLine name change.tracked with
    | error refusal =>
        rw [hline] at haddressed
        cases haddressed
    | ok found =>
        rw [hline] at haddressed
        exact congrArg Except.ok (Option.some.inj haddressed)
  exact ⟨n, hchanges, Document.evolves_of_evolutionLine hline,
    Document.evolvesFrom_iff_not_misleads hline⟩

theorem apply_evolved_changed_base :
    let text : Text := "evolve A->B 0.5\nevolve B 0.7".toList
    let mutation : Mutation := .rename ⟨.component, ['B'], some 1, .evolved (some 2)⟩ ['C']
    let next : Text := "evolve A->B 0.5\nevolve B->C 0.7".toList
    mutation.apply text {} = .ok (.changed next) ∧
      Document.ChangesOnly 2 (.ofText text) (.ofText next) ∧
      (Document.ofText text).EvolvesFrom ['B'] 2 ∧ ¬(Document.ofText text).Misleads ['B'] (some 2) := by
  intro text mutation next
  have hchanged : mutation.apply text {} = .ok (.changed next) := by decide +kernel
  have hfrom : (Document.ofText text).EvolvesFrom ['B'] 2 := by decide +kernel
  obtain ⟨n, hchanges, -, hiff⟩ := @apply_evolved_changed mutation _ text next {} rfl hchanged
  obtain rfl : 2 = n := (hchanges.ne_iff 2).mp (by decide +kernel)
  exact ⟨hchanged, hchanges, hfrom, hiff.mp hfrom⟩

/-- The component has an `evolve` statement, but one that evolves to its name comes first. -/
theorem apply_evolved_changed_other :
    let text : Text := "component B [0.4, 0.4]\nevolve A->B 0.6\nevolve B 0.7".toList
    let mutation : Mutation := .rename ⟨.component, ['B'], some 1, .evolved none⟩ ['C']
    let next : Text := "component B [0.4, 0.4]\nevolve A->C 0.6\nevolve B 0.7".toList
    (Document.ofText text).EvolvesFrom ['B'] 3 ∧ mutation.apply text {} = .ok (.changed next) ∧
      Document.ChangesOnly 2 (.ofText text) (.ofText next) ∧
      ¬(Document.ofText text).EvolvesFrom ['B'] 2 := by
  intro text mutation next
  have hbase : (Document.ofText text).EvolvesFrom ['B'] 3 := by decide +kernel
  have hother : ¬(Document.ofText text).EvolvesFrom ['B'] 2 := by decide +kernel
  have hchanged : mutation.apply text {} = .ok (.changed next) := by decide +kernel
  obtain ⟨-, n, -, hchanges⟩ := changesOnly_of_apply hchanged
  obtain rfl : 2 = n := (hchanges.ne_iff 2).mp (by decide +kernel)
  exact ⟨hbase, hchanged, hchanges, hother⟩

end Mutation

end WardleyMap
