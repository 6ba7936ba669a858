import WardleyMap.Proofs.Edit.Content
import WardleyMap.Proofs.Mutation.Run

/-!
# Mutations of different lines

All mutations but those of evolved components know their line, and of the map text they read this line
alone. Nor do they read the name of the element: it is compared with the one on the line, and reported if it
has drifted, but the edit goes by the line. So what such a mutation does can be told from the content of its
line (`Mutation.applyTo_eq_rewrite`), which two map texts may share that have nothing else in common.

Two of these mutations on different lines stay out of each other's way, and may be carried out in either order.
The line of an evolved component is looked for by its name, so it depends on the other lines; these mutations have
no line of their own here.
-/

namespace WardleyMap

/-- Both results are the same refusal, or both leave the map text as it is, or both give line `n` the same
content. -/
inductive Outcome.SameAt (n : Nat) : Except Refusal Outcome → Except Refusal Outcome → Prop where
  | refused (refusal : Refusal) : SameAt n (.error refusal) (.error refusal)
  | unchanged : SameAt n (.ok .unchanged) (.ok .unchanged)
  | changed {a b content : Text} (ha : (Document.ofText a).line? n = some content)
      (hb : (Document.ofText b).line? n = some content) : SameAt n (.ok (.changed a)) (.ok (.changed b))

namespace Element

def placedLine? (element : Element) : Option Nat :=
  match element.form with
  | .placed => element.line
  | .evolved _ => none

theorem placedLine?_eq_some_iff {element : Element} {n : Nat} :
    element.placedLine? = some n ↔ element.form = .placed ∧ element.line = some n := by
  unfold placedLine?
  cases element.form <;> simp

end Element

namespace Mutation

/-- The line that the mutation edits whatever the map text is, which is not known of the line of an evolved
component. -/
def ownLine? : Mutation → Option Nat
  | rename element _ | move element _ | setLabel element _ => element.placedLine?
  | resizeRegion element _ _ | setRange element _ _ => element.line
  | setText line _ => line

def ownEdit (mutation : Mutation) (config : Config) : Except Refusal Edit :=
  match mutation with
  | rename element newName => .ok (.rename element.kind element.name newName)
  | move element position => .ok (.move element.kind element.name position)
  | setLabel element offset => .ok (.setLabel element.kind element.name offset)
  | resizeRegion element bounds viewport =>
    if bounds.isAtLeast config.minRegionSize then
      .ok (.resize element.kind (bounds.topLeft viewport) (bounds.bottomRight viewport))
    else .error .regionTooSmall
  | setRange element start stop => .ok (.setRange element.name start stop)
  | setText _ text => .ok (.setText text)

/-- What the mutation makes of the content of line `n`, or why it is refused. -/
def rewrite (mutation : Mutation) (config : Config) (n : Nat) (content : Option Text) :
    Except Refusal Text :=
  match mutation.ownEdit config with
  | .error refusal => .error refusal
  | .ok edit => (edit.rewrite config n content).mapError .edit

def withName (mutation : Mutation) (name : Text) : Mutation :=
  match mutation with
  | rename element newName => rename { element with name } newName
  | move element position => move { element with name } position
  | setLabel element offset => setLabel { element with name } offset
  | resizeRegion element bounds viewport => resizeRegion { element with name } bounds viewport
  | setRange element start stop => setRange { element with name } start stop
  | setText line text => setText line text

variable {mutation other : Mutation} {config otherConfig : Config} {n m : Nat} {doc : Document}
  {text : Text}

/-! ### The content of the line decides -/

/-- A mutation with a line of its own finds it without looking at the text. -/
theorem resolve_eq_ownEdit (h : mutation.ownLine? = some n) (doc : Document) (config : Config) :
    mutation.resolve doc config = (mutation.ownEdit config).map (n, ·) := by
  cases mutation with
  | rename | move | setLabel =>
      obtain ⟨hform, hline⟩ := Element.placedLine?_eq_some_iff.mp h
      simp only [resolve, hform, Element.ownLine, hline]
      rfl
  | resizeRegion element bounds viewport =>
      have hline : element.line = some n := h
      simp only [resolve, ownEdit, Element.ownLine, hline]
      split <;> rfl
  | setRange element start stop =>
      have hline : element.line = some n := h
      simp only [resolve, Element.ownLine, hline]
      rfl
  | setText line newText =>
      obtain rfl : line = some n := h
      rfl

theorem addressed?_of_ownLine? (h : mutation.ownLine? = some n) (doc : Document) :
    mutation.addressed? doc = some n := by
  cases mutation with
  | rename | move | setLabel =>
      obtain ⟨hform, hline⟩ := Element.placedLine?_eq_some_iff.mp h
      simp only [addressed?, Element.addressed?, hform, hline]
  | resizeRegion | setRange | setText => exact h

theorem mapError_map {α β ε ε' : Type} (x : Except ε α) (f : α → β) (g : ε → ε') :
    (x.map f).mapError g = (x.mapError g).map f := by
  cases x <;> rfl

theorem applyTo_eq_rewrite (h : mutation.ownLine? = some n) (doc : Document) (config : Config) :
    mutation.applyTo doc config
      = (mutation.rewrite config n (doc.line? n)).map fun new => (doc.withLine? n new).getD doc := by
  rw [applyTo, resolve_eq_ownEdit h, rewrite]
  cases mutation.ownEdit config with
  | error refusal => rfl
  | ok edit =>
      change (doc.edit config n edit).mapError Refusal.edit = _
      rw [Document.edit_eq_rewrite, mapError_map]

/-- Whatever a mutation makes of its line is one line again. -/
theorem exists_fits_of_rewrite {content : Option Text} {new : Text}
    (h : mutation.rewrite config n content = .ok new) :
    ∃ old, content = some old ∧ Document.Fits old new := by
  unfold rewrite at h
  split at h
  · cases h
  · next edit hedit =>
      cases hrewrite : edit.rewrite config n content with
      | error cause =>
          rw [hrewrite] at h
          cases h
      | ok made =>
          rw [hrewrite] at h
          obtain rfl : made = new := Except.ok.inj h
          exact Edit.exists_fits_of_rewrite hrewrite

theorem apply_of_rewrite_error (h : mutation.ownLine? = some n) {refusal : Refusal}
    (hrewrite : mutation.rewrite config n ((Document.ofText text).line? n) = .error refusal) :
    mutation.apply text config = .error refusal := by
  simp only [apply, applyTo_eq_rewrite h, hrewrite]
  rfl

theorem apply_of_rewrite_ok (h : mutation.ownLine? = some n) {new : Text}
    (hrewrite : mutation.rewrite config n ((Document.ofText text).line? n) = .ok new) :
    ∃ old, ∃ doc' : Document, (Document.ofText text).line? n = some old ∧ doc'.IsCut ∧ doc'.line? n = some new ∧
      mutation.apply text config = .ok (if new = old then .unchanged else .changed doc'.toText) := by
  obtain ⟨old, hline, hfits⟩ := exists_fits_of_rewrite hrewrite
  obtain ⟨doc', hdoc⟩ := Document.exists_withLine? hline new
  refine ⟨old, doc', hline, (Document.isCut_ofText text).withLine? hline hfits hdoc,
    Document.line?_of_withLine? hdoc hline hfits, ?_⟩
  have hsame := Document.withLine?_eq_self_iff hline hdoc hfits
  simp only [apply, applyTo_eq_rewrite h, hrewrite, hdoc, Option.getD_some, Except.map, hsame]

/-- Map texts that have the same content on the line have it changed alike. -/
theorem sameAt_apply (h : mutation.ownLine? = some n) (config : Config) {a b : Text}
    (hline : (Document.ofText a).line? n = (Document.ofText b).line? n) :
    Outcome.SameAt n (mutation.apply a config) (mutation.apply b config) := by
  cases hrewrite : mutation.rewrite config n ((Document.ofText a).line? n) with
  | error refusal =>
      rw [apply_of_rewrite_error h hrewrite, apply_of_rewrite_error h (hline ▸ hrewrite)]
      exact .refused refusal
  | ok new =>
      obtain ⟨old, docA, hold, hcutA, hnewA, ha⟩ := apply_of_rewrite_ok h hrewrite
      obtain ⟨oldB, docB, holdB, hcutB, hnewB, hb⟩ := apply_of_rewrite_ok h (hline ▸ hrewrite)
      obtain rfl : old = oldB := Option.some.inj (hold.symm.trans (hline.trans holdB))
      rw [← hcutA.ofText_toText] at hnewA
      rw [← hcutB.ofText_toText] at hnewB
      rw [ha, hb]
      split
      · exact .unchanged
      · exact .changed hnewA hnewB

/-! ### The name does not matter -/

theorem ownLine?_withName (mutation : Mutation) (name : Text) :
    (mutation.withName name).ownLine? = mutation.ownLine? := by
  cases mutation <;> rfl

theorem ownEdit_withName (mutation : Mutation) (name : Text) (config : Config) :
    (mutation.withName name).ownEdit config = (mutation.ownEdit config).map (·.withName name) := by
  cases mutation with
  | resizeRegion element bounds viewport =>
      simp only [withName, ownEdit]
      split <;> rfl
  | rename | move | setLabel | setRange | setText => rfl

theorem rewrite_withName (mutation : Mutation) (name : Text) (config : Config) (n : Nat) :
    (mutation.withName name).rewrite config n = mutation.rewrite config n := by
  funext content
  rw [rewrite, rewrite, ownEdit_withName]
  cases mutation.ownEdit config with
  | error refusal => rfl
  | ok edit => exact congrArg (Except.mapError Refusal.edit) (edit.rewrite_withName name config n content)

theorem apply_withName (h : mutation.ownLine? = some n) (name text : Text) (config : Config) :
    (mutation.withName name).apply text config = mutation.apply text config := by
  have hname : (mutation.withName name).ownLine? = some n := (ownLine?_withName mutation name).trans h
  simp only [apply, applyTo_eq_rewrite h, applyTo_eq_rewrite hname, rewrite_withName]

/-! ### Two lines -/

/-- After a step the host holds the document that the mutation led to, or the one before it if the mutation
was refused. -/
theorem ofText_step (mutation : Mutation) (config : Config) (text : Text) :
    Document.ofText (step text (mutation, config))
      = (mutation.applyTo (.ofText text) config).toOption.getD (.ofText text) := by
  rw [step, commits_eq, apply]
  cases happly : mutation.applyTo (.ofText text) config with
  | error refusal => rfl
  | ok updated =>
      by_cases hsame : updated = .ofText text
      · simp [Except.map, Except.toOption, hsame]
      · have hcut := isCut_of_applyTo (Document.isCut_ofText text) happly
        simp [Except.map, Except.toOption, hsame, hcut.ofText_toText]

theorem stored?_step_of_ne (h : mutation.ownLine? = some n) (hne : m ≠ n) (text : Text)
    (config : Config) :
    (Document.ofText (step text (mutation, config))).stored? m = (Document.ofText text).stored? m := by
  apply stored?_step
  intro _ haddressed
  rw [addressed?_of_ownLine? h] at haddressed
  exact hne (Option.some.inj haddressed).symm

/-- What a step makes of its line depends on nothing else. -/
theorem stored?_step_congr (h : mutation.ownLine? = some n) (config : Config) {a b : Text}
    (hsame : (Document.ofText a).stored? n = (Document.ofText b).stored? n) :
    (Document.ofText (step a (mutation, config))).stored? n
      = (Document.ofText (step b (mutation, config))).stored? n := by
  have hline : (Document.ofText a).line? n = (Document.ofText b).line? n :=
    congrArg (Option.map Document.content) hsame
  rw [ofText_step, ofText_step, applyTo_eq_rewrite h, applyTo_eq_rewrite h, hline]
  cases mutation.rewrite config n ((Document.ofText b).line? n) with
  | error refusal => exact hsame
  | ok new =>
      simp only [Except.map, Except.toOption, Option.getD_some, Document.stored?_getD_withLine?, hsame]

/-- Mutations of two lines can be carried out in either order. -/
theorem step_comm (h : mutation.ownLine? = some n) (hother : other.ownLine? = some m) (hne : m ≠ n)
    (config otherConfig : Config) (text : Text) :
    step (step text (mutation, config)) (other, otherConfig)
      = step (step text (other, otherConfig)) (mutation, config) := by
  apply Document.ofText_injective
  apply Document.ext_stored?
  intro k
  -- Of lines `n` and `m` each is changed by one of the steps, which does not see the other one.
  by_cases hk : k = n
  · subst hk
    rw [stored?_step_of_ne hother hne.symm]
    apply stored?_step_congr h
    exact (stored?_step_of_ne hother hne.symm text otherConfig).symm
  · rw [stored?_step_of_ne h hk]
    by_cases hk' : k = m
    · subst hk'
      apply stored?_step_congr hother
      exact stored?_step_of_ne h hne text config
    · rw [stored?_step_of_ne hother hk', stored?_step_of_ne hother hk', stored?_step_of_ne h hk]

/-- A step on another line makes no difference to the result. -/
theorem sameAt_apply_step (h : mutation.ownLine? = some n) (hother : other.ownLine? = some m)
    (hne : m ≠ n) (config otherConfig : Config) (text : Text) :
    Outcome.SameAt n (mutation.apply (step text (other, otherConfig)) config)
      (mutation.apply text config) := by
  apply sameAt_apply h
  exact congrArg (Option.map Document.content) (stored?_step_of_ne hother hne.symm text otherConfig)

/-- What a mutation makes of its own line is decided by the content of this line, and not by the name of the
element. So two mutations of different lines lead to one map text in either order, and each of them has the
result that it would have alone. -/
theorem apply_own_line (h : mutation.ownLine? = some n) (config : Config) :
    (∀ a b, (Document.ofText a).line? n = (Document.ofText b).line? n →
      Outcome.SameAt n (mutation.apply a config) (mutation.apply b config)) ∧
    (∀ name text, (mutation.withName name).apply text config = mutation.apply text config) ∧
    ∀ other m otherConfig text, ownLine? other = some m → m ≠ n →
      run [(mutation, config), (other, otherConfig)] text
        = run [(other, otherConfig), (mutation, config)] text ∧
      Outcome.SameAt n (mutation.apply (step text (other, otherConfig)) config)
        (mutation.apply text config) ∧
      Outcome.SameAt m (other.apply (step text (mutation, config)) otherConfig)
        (other.apply text otherConfig) := by
  refine ⟨fun a b hline => sameAt_apply h config hline, fun name text => apply_withName h name text config,
    fun other m otherConfig text hother hne => ⟨step_comm h hother hne config otherConfig text, ?_, ?_⟩⟩
  · exact sameAt_apply_step h hother hne config otherConfig text
  · exact sameAt_apply_step hother h hne.symm otherConfig config text

theorem apply_own_line_drifted :
    let mutation : Mutation := .rename ⟨.component, "Old".toList, some 1, .placed⟩ ['B']
    let other : Mutation := .setText (some 2) "done".toList
    let a : Text := "component A [0.5, 0.5]\r\nannotation 1 [0.5, 0.5]".toList
    let b : Text := "component A [0.5, 0.5]\nnote N [0.1, 0.1]\n".toList
    let next : Text := "component B [0.5, 0.5]\r\nannotation 1 [0.5, 0.5] done".toList
    mutation.ownLine? = some 1 ∧ (Document.ofText a).line? 1 = (Document.ofText b).line? 1 ∧
      Outcome.SameAt 1 (mutation.apply a {}) (mutation.apply b {}) ∧
      (mutation.withName ['A']).apply a {} = mutation.apply a {} ∧
      run [(mutation, {}), (other, {})] a = next ∧ run [(other, {}), (mutation, {})] a = next := by
  intro mutation other a b next
  have hline : (Document.ofText a).line? 1 = (Document.ofText b).line? 1 := by decide +kernel
  have hnext : run [(mutation, {}), (other, {})] a = next := by decide +kernel
  obtain ⟨hlocal, hname, horder⟩ := @apply_own_line mutation 1 rfl {}
  obtain ⟨hcomm, -, -⟩ := horder other 2 {} a rfl (by decide)
  exact ⟨rfl, hline, hlocal a b hline, hname ['A'] a, hnext, hcomm.symm.trans hnext⟩

end Mutation

end WardleyMap
