import WardleyMap.Mutation.Dispatch
import WardleyMap.Proofs.Edit.Basic

/-!
# Runs of mutations

The host keeps one map text, hands it to every mutation and takes back what is committed. A run is the
fold of these steps. A step commits at most once, and a commit touches one line: the line that the
element names, or, for an evolved component, the `evolve` line that was found for it. Everything here
rests on the lines of the committed text being the lines of the document that was edited, which holds
because no edit writes a line feed.
-/

namespace WardleyMap

def Event.committed? : Event → Option Text
  | commit text => some text
  | log _ _ | alert _ | console _ => none

namespace Document

/-- The documents have the same lines but for line `n`, which differs and ends as it did. -/
structure ChangesOnly (n : Nat) (a b : Document) : Prop where
  length_eq : b.lines.length = a.lines.length
  ne_iff : ∀ m, b.stored? m ≠ a.stored? m ↔ m = n
  return_iff : ∀ old new, a.stored? n = some old → b.stored? n = some new →
    (new.getLast? = some '\r' ↔ old.getLast? = some '\r')

theorem ext_stored? {a b : Document} (h : ∀ m, b.stored? m = a.stored? m) : b = a := by
  have hlines : b.lines = a.lines := List.ext_getElem? fun i => h (i + 1)
  cases a
  cases b
  exact congrArg mk hlines

/-- An edit that makes a difference makes it on its own line. -/
theorem changesOnly_of_edit {doc doc' : Document} {config : Config} {n : Nat} {e : Edit}
    (h : doc.edit config n e = .ok doc') (hne : doc' ≠ doc) : ChangesOnly n doc doc' := by
  obtain ⟨text, new, hline, -, hwith, hfits⟩ := line?_of_edit h
  refine ⟨length_lines_of_withLine? hwith, fun m => ⟨fun hm => ?_, ?_⟩, fun old new' hold hnew => ?_⟩
  · by_contra hother
    exact hm (stored?_of_withLine?_ne hwith hother)
  · rintro rfl hsame
    refine hne (ext_stored? fun k => ?_)
    by_cases hk : k = m
    · rw [hk, hsame]
    · exact stored?_of_withLine?_ne hwith hk
  · obtain ⟨stored, hstored, hstored'⟩ := stored?_of_withLine? hwith
    rw [hstored] at hold
    rw [hstored'] at hnew
    obtain rfl := Option.some.inj hold
    obtain rfl := Option.some.inj hnew
    obtain rfl : content stored = text := by simpa [line?, hstored] using hline
    exact getLast?_append_ending hfits

end Document

def Element.addressed? (element : Element) (doc : Document) : Option Nat :=
  match element.form with
  | .placed => element.line
  | .evolved tracked => (doc.evolutionLine element.name tracked).toOption

namespace Mutation

/-- The line that the mutation is about: the one that the element or the annotation names, or the
`evolve` line of an evolved component. -/
def addressed? (mutation : Mutation) (doc : Document) : Option Nat :=
  match mutation with
  | rename element _ | move element _ | setLabel element _ => element.addressed? doc
  | resizeRegion element _ _ | setRange element _ _ => element.line
  | setText line _ => line

def commits (mutation : Mutation) (text : Text) (config : Config) : List Text :=
  (mutation.dispatch text config).2.filterMap Event.committed?

def step (text : Text) (call : Mutation × Config) : Text :=
  (call.1.commits text call.2).foldl (fun _ next => next) text

def run (calls : List (Mutation × Config)) (text : Text) : Text :=
  calls.foldl step text

def addressedLines : List (Mutation × Config) → Text → List Nat
  | [], _ => []
  | call :: calls, text =>
    let line := if call.1.commits text call.2 = [] then none
      else call.1.addressed? (.ofText text)
    line.toList ++ addressedLines calls (step text call)

variable {mutation : Mutation} {text next : Text} {config : Config}

/-! ### Where a mutation is carried out -/

theorem ownLine_eq_ok {element : Element} {n : Nat} (h : element.ownLine = .ok n) :
    element.line = some n := by
  unfold Element.ownLine at h
  split at h
  · next line hline =>
      rw [hline]
      exact congrArg some (Except.ok.inj h)
  · simp at h

theorem toOption_evolutionLine {element : Element} {doc : Document} {tracked : Option Nat} {n : Nat}
    (h : element.evolutionLine doc tracked = .ok n) :
    (doc.evolutionLine element.name tracked).toOption = some n := by
  unfold Element.evolutionLine at h
  split at h
  · simp at h
  · rw [h]
    rfl

theorem exists_of_map_eq_ok {α β ε : Type} {x : Except ε α} {f : α → β} {b : β}
    (h : x.map f = .ok b) : ∃ a, x = .ok a ∧ f a = b := by
  cases x with
  | error e => simp [Except.map] at h
  | ok a => exact ⟨a, rfl, Except.ok.inj h⟩

/-- Where the edit goes is where the element is addressed, in either of its forms. -/
theorem addressed?_of_map {element : Element} {doc : Document} {n : Nat} {edit placed : Edit}
    {evolved : Edit}
    (h : (match element.form with
      | .placed => element.ownLine.map (·, placed)
      | .evolved line => (element.evolutionLine doc line).map (·, evolved)) = .ok (n, edit)) :
    element.addressed? doc = some n := by
  unfold Element.addressed?
  split at h
  · next hform =>
      obtain ⟨line, hline, heq⟩ := exists_of_map_eq_ok h
      obtain rfl := (Prod.mk.inj heq).1
      simpa only [hform] using ownLine_eq_ok hline
  · next tracked hform =>
      obtain ⟨line, hline, heq⟩ := exists_of_map_eq_ok h
      obtain rfl := (Prod.mk.inj heq).1
      simpa only [hform] using toOption_evolutionLine hline

/-- The line that a mutation is resolved to is the one that it addresses. -/
theorem addressed?_of_resolve {doc : Document} {n : Nat} {edit : Edit}
    (h : mutation.resolve doc config = .ok (n, edit)) : mutation.addressed? doc = some n := by
  cases mutation with
  | rename element newName => exact addressed?_of_map h
  | move element position => exact addressed?_of_map h
  | setLabel element offset => exact addressed?_of_map h
  | resizeRegion element bounds viewport =>
      simp only [resolve] at h
      split at h
      · simp at h
      · next line hline =>
          split at h
          · obtain rfl := (Prod.mk.inj (Except.ok.inj h)).1
            exact ownLine_eq_ok hline
          · simp at h
  | setRange element start stop =>
      obtain ⟨line, hline, heq⟩ := exists_of_map_eq_ok h
      obtain rfl := (Prod.mk.inj heq).1
      exact ownLine_eq_ok hline
  | setText line newText =>
      simp only [resolve] at h
      split at h
      · exact congrArg some (Prod.mk.inj (Except.ok.inj h)).1
      · simp at h

/-! ### What one dispatch commits -/

theorem committed?_mismatches (mismatches : List Mismatch) :
    (mismatches.map Mismatch.event).filterMap Event.committed? = [] := by
  rw [List.filterMap_eq_nil_iff]
  intro event hevent
  obtain ⟨mismatch, -, rfl⟩ := List.mem_map.mp hevent
  rfl

theorem commits_eq (mutation : Mutation) (text : Text) (config : Config) :
    mutation.commits text config = match mutation.apply text config with
      | .ok (.changed next) => [next]
      | _ => [] := by
  unfold commits dispatch
  dsimp only
  rw [List.filterMap_append, committed?_mismatches, List.nil_append]
  cases mutation.apply text config with
  | error refusal => rfl
  | ok outcome => cases outcome <;> rfl

theorem dispatch_eq_ok_true_iff :
    (mutation.dispatch text config).1 = .ok true ↔
      ∃ next, mutation.apply text config = .ok (.changed next) := by
  unfold dispatch
  dsimp only
  cases mutation.apply text config with
  | error refusal => simp [Except.map]
  | ok outcome => cases outcome <;> simp [Except.map]

theorem applyTo_eq_ok_iff {doc doc' : Document} : mutation.applyTo doc config = .ok doc' ↔
    ∃ n edit, mutation.resolve doc config = .ok (n, edit) ∧ doc.edit config n edit = .ok doc' := by
  unfold applyTo
  cases mutation.resolve doc config with
  | error refusal => simp
  | ok found =>
      obtain ⟨n, edit⟩ := found
      cases hedit : doc.edit config n edit with
      | error cause => simp [hedit, Except.mapError]
      | ok made => simp [hedit, Except.mapError]

theorem isCut_of_applyTo {doc doc' : Document} (hdoc : doc.IsCut)
    (h : mutation.applyTo doc config = .ok doc') : doc'.IsCut := by
  obtain ⟨n, edit, -, hedit⟩ := applyTo_eq_ok_iff.mp h
  exact hdoc.edit hedit

/-- The step of the run: a mutation that changes the text changes one line of it. -/
theorem changesOnly_of_apply (h : mutation.apply text config = .ok (.changed next)) :
    next ≠ text ∧ ∃ n, mutation.addressed? (.ofText text) = some n ∧
      Document.ChangesOnly n (.ofText text) (.ofText next) := by
  obtain ⟨updated, happly, houtcome⟩ := exists_of_map_eq_ok h
  obtain ⟨n, edit, hresolve, hedit⟩ := applyTo_eq_ok_iff.mp happly
  split at houtcome
  · simp at houtcome
  · next hne =>
      obtain rfl := Outcome.changed.inj houtcome
      have hupdated := (isCut_of_applyTo (Document.isCut_ofText text) happly).ofText_toText
      refine ⟨?_, n, addressed?_of_resolve hresolve, ?_⟩
      · intro hsame
        exact hne (by rw [← hupdated, hsame])
      · rw [hupdated]
        exact Document.changesOnly_of_edit hedit hne

theorem commits_eq_nil (h : (mutation.dispatch text config).1 ≠ .ok true) :
    mutation.commits text config = [] := by
  rw [commits_eq]
  split
  · next next happly => exact absurd (dispatch_eq_ok_true_iff.mpr ⟨next, happly⟩) h
  · rfl

theorem exists_commits_eq (h : (mutation.dispatch text config).1 = .ok true) :
    ∃ next n, mutation.commits text config = [next] ∧ next ≠ text ∧
      mutation.addressed? (.ofText text) = some n ∧
      Document.ChangesOnly n (.ofText text) (.ofText next) := by
  obtain ⟨next, happly⟩ := dispatch_eq_ok_true_iff.mp h
  obtain ⟨hne, n, haddressed, hchanges⟩ := changesOnly_of_apply happly
  exact ⟨next, n, by rw [commits_eq, happly], hne, haddressed, hchanges⟩

/-! ### Runs -/

/-- A step keeps every line that it does not address. -/
theorem stored?_step {call : Mutation × Config} {n : Nat}
    (h : call.1.commits text call.2 ≠ [] → call.1.addressed? (.ofText text) ≠ some n) :
    (Document.ofText (step text call)).stored? n = (Document.ofText text).stored? n := by
  by_cases hresult : (call.1.dispatch text call.2).1 = .ok true
  · obtain ⟨next, line, hcommits, -, haddressed, hchanges⟩ := exists_commits_eq hresult
    have hn : n ≠ line := by
      rintro rfl
      exact h (by simp [hcommits]) haddressed
    rw [step, hcommits]
    by_contra hne
    exact hn ((hchanges.ne_iff n).mp hne)
  · rw [step, commits_eq_nil hresult]
    rfl

/-- A run keeps every line that none of its commits addresses. -/
theorem stored?_run {calls : List (Mutation × Config)} {n : Nat}
    (h : n ∉ addressedLines calls text) :
    (Document.ofText (run calls text)).stored? n = (Document.ofText text).stored? n := by
  induction calls generalizing text with
  | nil => rfl
  | cons call calls ih =>
      rw [addressedLines, List.mem_append, not_or] at h
      obtain ⟨hcall, hcalls⟩ := h
      change (Document.ofText (run calls (step text call))).stored? n = _
      rw [ih hcalls]
      refine stored?_step fun hcommits haddressed => hcall ?_
      rw [if_neg hcommits, haddressed]
      exact List.mem_singleton_self n

/-- Along every run a call commits exactly when its result says so, and then once, a text that
differs from the one before it in the one line that the call addresses. So a line that no commit
addresses is the same after the run as before it. -/
theorem run_commits_one_line (initial : Text) (calls : List (Mutation × Config)) :
    (∀ done mutation config rest, calls = done ++ (mutation, config) :: rest →
      let current := run done initial
      ((mutation.dispatch current config).1 ≠ .ok true → mutation.commits current config = []) ∧
      ((mutation.dispatch current config).1 = .ok true → ∃ next n,
        mutation.commits current config = [next] ∧ run (done ++ [(mutation, config)]) initial = next ∧
        next ≠ current ∧ mutation.addressed? (.ofText current) = some n ∧
        Document.ChangesOnly n (.ofText current) (.ofText next))) ∧
    ∀ n, n ∉ addressedLines calls initial →
      (Document.ofText (run calls initial)).stored? n = (Document.ofText initial).stored? n := by
  refine ⟨fun done mutation config rest _ => ⟨commits_eq_nil, fun hresult => ?_⟩,
    fun n hn => stored?_run hn⟩
  obtain ⟨next, n, hcommits, hne, haddressed, hchanges⟩ := exists_commits_eq hresult
  refine ⟨next, n, hcommits, ?_, hne, haddressed, hchanges⟩
  rw [run, List.foldl_append]
  change step (run done initial) (mutation, config) = next
  rw [step, hcommits]
  rfl

theorem run_commits_one_line_rename :
    let initial : Text := "title M\ncomponent A [0.5, 0.5]\r\nnote N [0.1, 0.1]".toList
    let mutation : Mutation := .rename ⟨.component, ['A'], some 2, .placed⟩ ['B']
    let final := run [(mutation, {})] initial
    (mutation.dispatch initial {}).1 = .ok true ∧ mutation.commits initial {} = [final] ∧
      final ≠ initial ∧ Document.ChangesOnly 2 (.ofText initial) (.ofText final) ∧
      (Document.ofText final).stored? 3 = (Document.ofText initial).stored? 3 := by
  intro initial mutation final
  have hresult : (mutation.dispatch initial {}).1 = .ok true := by decide +kernel
  have hline : mutation.addressed? (.ofText initial) = some 2 := by decide +kernel
  have hother : 3 ∉ addressedLines [(mutation, {})] initial := by decide +kernel
  obtain ⟨hsteps, hkept⟩ := run_commits_one_line initial [(mutation, {})]
  obtain ⟨next, n, hcommits, rfl, hne, haddressed, hchanges⟩ := (hsteps [] _ _ [] rfl).2 hresult
  obtain rfl : n = 2 := Option.some.inj (haddressed.symm.trans hline)
  exact ⟨hresult, hcommits, hne, hchanges, hkept 3 hother⟩

end Mutation

end WardleyMap
