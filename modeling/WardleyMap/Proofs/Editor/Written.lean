import WardleyMap.Proofs.Edit.Printed
import WardleyMap.Proofs.Editor.Session
import WardleyMap.Proofs.Mutation.Resize
import WardleyMap.Proofs.Request.Numbers

/-!
# What a request writes

From the text of a request to the text of the map, a number passes through the decoder, the bounds of a region
through sums, quotients and the clamp, and the result through the printer; and what is printed has to be found
again when the line is read. At each of these steps an infinite number or one that is not a number could come up,
and it would be printed as a word that hides its clause from the reader. On a finite canvas none is left when an
edit has been resolved, whatever the request was (`Mutation.isFinite_of_mem_values`), so every request that is
carried out writes plain decimals, and the clause that holds them is there when the line is read again.
-/

namespace WardleyMap

namespace Mutation

variable {mutation : Mutation} {viewport : Viewport} {doc : Document} {config : Config} {n : Nat} {edit : Edit}

theorem eq_of_map_form {element : Element} {placed evolved : Edit}
    (h : (match element.form with
      | .placed => element.ownLine.map (·, placed)
      | .evolved line => (element.evolutionLine doc line).map (·, evolved)) = .ok (n, edit)) :
    edit = placed ∨ edit = evolved := by
  split at h
  · obtain ⟨line, -, heq⟩ := exists_of_map_eq_ok h
    exact Or.inl (Prod.mk.inj heq).2.symm
  · obtain ⟨line, -, heq⟩ := exists_of_map_eq_ok h
    exact Or.inr (Prod.mk.inj heq).2.symm

/-- The values that come of a request are finite, also those of bounds that are out of range. -/
theorem isFinite_of_mem_values (hdecoded : mutation.IsDecoded viewport) (hviewport : viewport.IsFinite)
    (h : mutation.resolve doc config = .ok (n, edit)) : ∀ x ∈ edit.values, x.isFinite = true := by
  cases mutation with
  | rename element newName =>
      rcases eq_of_map_form h with rfl | rfl <;> exact fun x hx => absurd hx List.not_mem_nil
  | move element position =>
      obtain ⟨hmaturity, hvisibility⟩ := hdecoded
      rcases eq_of_map_form h with rfl | rfl
      · exact List.forall_mem_cons.mpr ⟨hvisibility, List.forall_mem_singleton.mpr hmaturity⟩
      · exact List.forall_mem_singleton.mpr hmaturity
  | setLabel element offset =>
      obtain ⟨hdx, hdy⟩ := hdecoded
      rcases eq_of_map_form h with rfl | rfl <;>
        exact List.forall_mem_cons.mpr ⟨hdx, List.forall_mem_singleton.mpr hdy⟩
  | resizeRegion element bounds canvas =>
      obtain ⟨rfl, x, y, width, height, rfl, hx, hy, hwidth, hheight⟩ := hdecoded
      obtain ⟨-, rfl⟩ := eq_of_resolve_resizeRegion h
      obtain ⟨hfirst, hsecond⟩ := Rect.isInside_position_ofSize hx hy hwidth hheight hviewport
      exact fun x hx => (Position.inUnit_of_mem_edges hfirst hsecond x hx).isFinite
  | setRange element start stop =>
      obtain ⟨hstart, hstop⟩ := hdecoded
      obtain ⟨line, -, heq⟩ := exists_of_map_eq_ok h
      obtain rfl := (Prod.mk.inj heq).2
      rw [Edit.values]
      split
      · exact List.forall_mem_cons.mpr ⟨hstart, List.forall_mem_singleton.mpr hstop⟩
      · exact List.forall_mem_cons.mpr ⟨hstop, List.forall_mem_singleton.mpr hstart⟩
  | setText line newText =>
      simp only [resolve] at h
      split at h
      · obtain rfl := (Prod.mk.inj (Except.ok.inj h)).2
        exact fun x hx => absurd hx List.not_mem_nil
      · cases h

end Mutation

/-- The edit, made on line `n` of the text, replaces spans of that line as it plans from the line, and keeps the
other lines. -/
structure Edit.Makes (edit : Edit) (config : Config) (n : Nat) (rs : List Replacement)
    (text next line' : Text) : Prop where
  plan : ∃ line statement, (Document.ofText text).line? n = some line ∧
    Statement.ofLine? edit.kind line = some statement ∧
    edit.plan? config.precision line statement = some rs ∧ line' = Replacement.applyAll rs line
  writes : (Document.ofText text).Writes n line' (.ofText next)

namespace Edit

variable {edit : Edit} {config : Config} {n : Nat} {text next : Text}

theorem exists_makes (h : (Document.ofText text).edit config n edit = .ok (.ofText next)) :
    ∃ rs line', edit.Makes config n rs text next line' := by
  obtain ⟨-, line, statement, rs, hline, hstatement, hplan, hdoc⟩ := Document.edit_eq_ok_iff.mp h
  exact ⟨rs, _, ⟨line, statement, hline, hstatement, hplan, rfl⟩,
    Document.writes_of_withLine? hline hdoc (fits_of_plan? hstatement hplan)⟩

theorem Makes.isPlain {rs : List Replacement} {line' : Text} (h : edit.Makes config n rs text next line')
    (hfinite : ∀ x ∈ edit.values, x.isFinite = true) : ∀ r ∈ rs, ∃ numbers,
      edit.Puts config.precision r.text numbers ∧ ∀ s ∈ numbers, Decimal.IsPlain config.precision s := by
  obtain ⟨line, statement, -, -, hplan, -⟩ := h.plan
  intro r hr
  obtain ⟨numbers, hputs⟩ := puts_of_mem_plan? hplan hr
  exact ⟨numbers, hputs, hputs.isPlain hfinite⟩

theorem Makes.exists_clause {rs : List Replacement} {line' : Text} (h : edit.Makes config n rs text next line')
    (hsupported : edit.unsupported? = none) (hfinite : ∀ x ∈ edit.values, x.isFinite = true)
    (hvalues : edit.values ≠ []) (hkind : edit.kind ≠ .evolve) : ∃ clause statement numbers,
      edit.request? = some (clause, edit.values) ∧ Statement.ofLine? edit.kind line' = some statement ∧
      statement.numbers? clause = some numbers ∧ Field.Agree config.precision numbers edit.values := by
  obtain ⟨line, statement, -, hstatement, hplan, rfl⟩ := h.plan
  obtain ⟨clause, hrequest⟩ := exists_request?_eq hsupported hvalues hkind
  obtain ⟨line', statement', rfl, hstatement', hrewrites, -⟩ :=
    exists_rewrites hsupported hrequest hfinite hstatement hplan
  obtain ⟨numbers, hnumbers, hagree⟩ := hrewrites.shows
  exact ⟨clause, statement', numbers, hrequest, hstatement', hnumbers, hagree⟩

end Edit

namespace Editor

variable {editor : Editor} {host : Host} {text request : Text}

/-- A call that succeeds has decoded its request and handed over the text that its mutation gives. -/
theorem exists_of_apply (h : (editor.apply host text request).1 = true) : ∃ mutation next,
    Request.mutation request editor.viewport = .ok mutation ∧
    mutation.apply text editor.config = .ok (.changed next) ∧
    (editor.apply host text request).2.filterMap Event.committed? = [next] := by
  unfold apply at h ⊢
  cases hrequest : Request.mutation request editor.viewport with
  | error error =>
      rw [hrequest] at h
      cases h
  | ok mutation =>
      rw [hrequest] at h
      obtain ⟨next, happly⟩ := Mutation.dispatch_eq_ok_true_iff.mp (commit_fst_iff.mp h)
      refine ⟨mutation, next, rfl, happly, ?_⟩
      dsimp only
      rw [committed?_commit, Mutation.commits_eq, happly]

/-- A request that is carried out on a finite canvas makes one edit of one line. All numbers that the edit prints
are plain decimals. If it moves, labels or resizes a statement other than that of an evolved component, the line
shows the clause with the new numbers when it is read again. -/
theorem apply_writes_plain (hviewport : editor.viewport.IsFinite)
    (h : (editor.apply host text request).1 = true) : ∃ mutation n edit rs next line',
      Request.mutation request editor.viewport = .ok mutation ∧
      mutation.resolve (.ofText text) editor.config = .ok (n, edit) ∧
      (editor.apply host text request).2.filterMap Event.committed? = [next] ∧
      edit.Makes editor.config n rs text next line' ∧
      (∀ r ∈ rs, ∃ numbers, edit.Puts editor.config.precision r.text numbers ∧
        ∀ s ∈ numbers, Decimal.IsPlain editor.config.precision s) ∧
      (edit.values ≠ [] → edit.kind ≠ .evolve → ∃ clause statement numbers,
        edit.request? = some (clause, edit.values) ∧ Statement.ofLine? edit.kind line' = some statement ∧
        statement.numbers? clause = some numbers ∧
        Field.Agree editor.config.precision numbers edit.values) := by
  obtain ⟨mutation, next, hrequest, happly, hcommits⟩ := exists_of_apply h
  obtain ⟨n, edit, hresolve, hedit⟩ := Mutation.ofText_of_apply happly
  obtain ⟨hsupported, -⟩ := Document.edit_eq_ok_iff.mp hedit
  obtain ⟨rs, line', hmakes⟩ := Edit.exists_makes hedit
  have hfinite : ∀ x ∈ edit.values, x.isFinite = true :=
    Mutation.isFinite_of_mem_values (Request.isDecoded_of_mutation hrequest) hviewport hresolve
  exact ⟨mutation, n, edit, rs, next, line', hrequest, hresolve, hcommits, hmakes, hmakes.isPlain hfinite,
    hmakes.exists_clause hsupported hfinite⟩

/-- The right edge of the bounds is infinite. -/
theorem apply_writes_plain_overflow :
    let editor : Editor := { viewport := ⟨800.0, 600.0⟩ }
    let text : Text := "pioneers [0.9, 0.1, 0.6, 0.4]".toList
    let next : Text := "pioneers [1.00, 1.00, 0.90, 1.00]".toList
    let request : Text := "[\"resizeRegion\", [\"pioneers\", \"\", 1], [1e308, 0, 1e308, 60]]".toList
    editor.viewport.IsFinite ∧ (editor.apply {} text request).1 = true ∧
      ∃ (n : Nat) (edit : Edit) (rs : List Replacement) (line' : Text),
        edit.kind = .pioneers ∧ edit.values.length = 4 ∧ edit.Makes editor.config n rs text next line' ∧
        (∀ r ∈ rs, ∃ numbers, edit.Puts 2 r.text numbers ∧ ∀ s ∈ numbers, Decimal.IsPlain 2 s) ∧
        ∃ clause statement numbers, edit.request? = some (clause, edit.values) ∧
          Statement.ofLine? .pioneers line' = some statement ∧
          statement.numbers? clause = some numbers ∧ Field.Agree 2 numbers edit.values := by
  intro editor text next request
  have hviewport : editor.viewport.IsFinite := ⟨by decide +kernel, by decide +kernel⟩
  have happly : (editor.apply {} text request).1 = true := by decide +kernel
  have hnext : (editor.apply {} text request).2.filterMap Event.committed? = [next] := by decide +kernel
  have hresize : ((Request.mutation request editor.viewport).toOption.bind fun mutation =>
      (mutation.resolve (.ofText text) editor.config).toOption.map fun found =>
        (found.2.kind, found.2.values.length)) = some (.pioneers, 4) := by
    decide +kernel
  obtain ⟨mutation, n, edit, rs, next', line', hrequest, hresolve, hcommits, hmakes, hplain, hclause⟩ :=
    apply_writes_plain hviewport happly
  obtain rfl : next = next' := List.singleton_injective (hnext.symm.trans hcommits)
  have hedit : Option.some (edit.kind, edit.values.length) = some (.pioneers, 4) := by
    rw [hrequest] at hresize
    change (mutation.resolve (.ofText text) editor.config).toOption.map _ = _ at hresize
    rwa [hresolve] at hresize
  obtain ⟨hkind, hlength⟩ := Prod.mk.inj (Option.some.inj hedit)
  have hvalues : edit.values ≠ [] := List.ne_nil_of_length_eq_add_one hlength
  rw [hkind] at hclause
  exact ⟨hviewport, happly, n, edit, rs, line', hkind, hlength, hmakes, hplain,
    hclause hvalues Kind.noConfusion⟩

end Editor

end WardleyMap
