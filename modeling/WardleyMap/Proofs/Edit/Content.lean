import WardleyMap.Proofs.Edit.Basic

/-!
# What an edit makes of its line

An edit reads the content of one line and writes the content of one line. `Edit.rewrite` is what happens
between the two, and `Document.edit_eq_rewrite` says that nothing else happens: whatever an edit does to a
document is decided by the content of its line. The name that the edit expects on the line takes no part in
it, since a name that has drifted is reported and the edit is made all the same.
-/

namespace WardleyMap

namespace Edit

/-- The new content that the edit makes of the content of line `n`, or why it makes none. There is no content
if there is no such line. -/
def rewrite (edit : Edit) (config : Config) (n : Nat) (content : Option Text) : Except EditError Text :=
  match edit.unsupported? with
  | some operation => .error (.unsupported edit.kind operation)
  | none =>
    match content.bind fun text => (Statement.ofLine? edit.kind text).map (text, ·) with
    | none => .error (.notFound (.notOnLine n edit.kind))
    | some (text, statement) =>
      match edit.plan? config.precision text statement with
      | none => .error (.noCoordinates n edit.kind)
      | some replacements => .ok (Replacement.applyAll replacements text)

def withName (edit : Edit) (name : Text) : Edit :=
  match edit with
  | rename kind _ newName => rename kind name newName
  | setOverride _ newName => setOverride name newName
  | move kind _ position => move kind name position
  | moveEvolution _ maturity => moveEvolution name maturity
  | setRange _ start stop => setRange name start stop
  | setLabel kind _ offset => setLabel kind name offset
  | resize kind first second => resize kind first second
  | setText text => setText text

variable {edit : Edit} {config : Config} {n : Nat}

/-- What is made of a line brings no line feed into it and no carriage return to its end. -/
theorem exists_fits_of_rewrite {content : Option Text} {new : Text}
    (h : edit.rewrite config n content = .ok new) :
    ∃ text, content = some text ∧ Document.Fits text new := by
  unfold rewrite at h
  split at h
  · cases h
  · split at h
    · cases h
    · next text statement hcontent =>
        obtain ⟨line, rfl, hstatement⟩ := Option.bind_eq_some_iff.mp hcontent
        obtain ⟨found, hfound, hpair⟩ := Option.map_eq_some_iff.mp hstatement
        obtain ⟨rfl, rfl⟩ := Prod.mk.inj hpair
        split at h
        · cases h
        · next replacements hplan =>
            obtain rfl := Except.ok.inj h
            exact ⟨line, rfl, fits_of_plan? hfound hplan⟩

theorem plan?_withName (edit : Edit) (name : Text) (precision : Nat) (text : Text)
    (statement : Statement) :
    (edit.withName name).plan? precision text statement = edit.plan? precision text statement := by
  cases edit <;> cases statement <;> rfl

theorem rewrite_withName (edit : Edit) (name : Text) (config : Config) (n : Nat)
    (content : Option Text) :
    (edit.withName name).rewrite config n content = edit.rewrite config n content := by
  have hkind : (edit.withName name).kind = edit.kind := by cases edit <;> rfl
  have hunsupported : (edit.withName name).unsupported? = edit.unsupported? := by cases edit <;> rfl
  simp only [rewrite, hkind, hunsupported, plan?_withName]

end Edit

namespace Document

/-- What an edit does to a document is decided by the content of its line. -/
theorem edit_eq_rewrite (doc : Document) (config : Config) (n : Nat) (edit : Edit) :
    doc.edit config n edit
      = (edit.rewrite config n (doc.line? n)).map fun new => (doc.withLine? n new).getD doc := by
  unfold Document.edit Edit.rewrite locate
  cases edit.unsupported? with
  | some operation => rfl
  | none =>
      cases doc.line? n with
      | none => rfl
      | some text =>
          cases hstatement : Statement.ofLine? edit.kind text with
          | none => simp only [Option.bind_some, hstatement, Option.map_none, Except.map]
          | some statement =>
              simp only [Option.bind_some, hstatement, Option.map_some]
              cases edit.plan? config.precision text statement with
              | none => rfl
              | some replacements => rfl

end Document

end WardleyMap
