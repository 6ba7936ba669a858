import WardleyMap.Proofs.Edit.Restate
import WardleyMap.Proofs.Grammar.Annotation

/-!
# Writing the remark of an annotation

The remark is whatever stands behind the points, and the points say themselves where they end. So an edit of
the remark turns a line of the grammar into another one that differs in its tail alone, and the tail
may be any text: brackets, quotes and numbers in it are not looked at. `Annotation.setText?_eq` puts
the four cases of an old and a new remark into one, by asking what the line shows already.
-/

namespace WardleyMap

namespace Text

/-- The remark that a text makes: its words with single spaces between them, if it has any. -/
def remark? (s : Text) : Option Text :=
  if s.fold = [] then none else some s.fold

/-- What stands behind the points for a remark. -/
def behindPoints : (remark : Option Text) → Text
  | none => []
  | some remark => ' ' :: remark

/-- Words set side by side start with the first character of the first word. -/
theorem head_unwords {ws : List Text} (h : ∀ word ∈ ws, word ≠ [] ∧ ∀ c ∈ word, isBlank c = false) :
    ∀ c ∈ (unwords ws).head?, isBlank c = false := by
  cases ws with
  | nil => simp [unwords]
  | cons word ws =>
      obtain ⟨hne, hword⟩ := h word List.mem_cons_self
      obtain ⟨d, s, rfl⟩ := List.exists_cons_of_ne_nil hne
      have hhead : (unwords ((d :: s) :: ws)).head? = some d := by
        cases ws with
        | nil => simp [unwords]
        | cons next ws => simp [unwords, List.intercalate_cons_cons]
      intro c hc
      obtain rfl := Option.some.inj (hhead.symm.trans hc)
      exact hword d List.mem_cons_self

/-- A folded text does not start with a blank. -/
theorem head_fold (s : Text) : ∀ c ∈ s.fold.head?, isBlank c = false := by
  refine head_unwords fun word hword => ?_
  obtain ⟨hmem, hne⟩ := List.mem_filter.mp hword
  exact ⟨by simpa using hne, fun c hc => (mem_of_mem_split hmem c hc).2⟩

end Text

namespace Annotation

/-- A remark is written over all that stands behind the points, unless the line shows it already. -/
theorem setText?_eq {a : Annotation} {points : Span} (h : a.coordinates = some points)
    (line newText : Text) : a.setText? line newText
      = some (if a.text.map (·.slice line) = newText.remark? then []
        else [⟨⟨points.stop, line.length⟩, Text.behindPoints newText.remark?⟩]) := by
  simp only [setText?, h, Option.map_some, Option.some.injEq]
  cases htext : a.text with
  | none =>
      by_cases hfold : newText.fold = []
      · simp [hfold, Text.remark?]
      · obtain ⟨c, s, hs⟩ := List.exists_cons_of_ne_nil hfold
        simp [hs, Text.remark?, Text.behindPoints]
  | some span =>
      by_cases hfold : newText.fold = []
      · simp [hfold, Text.remark?, Text.behindPoints]
      · obtain ⟨c, s, hs⟩ := List.exists_cons_of_ne_nil hfold
        simp [hs, Text.remark?, Text.behindPoints]

end Annotation

namespace Grammar.AnnotationPhrase

variable (a : AnnotationPhrase)

def upToPoints : Text :=
  a.lead.text ++ (Kind.keyword Kind.annotation ++ (a.gap.text ++ (a.number.text ++
    (a.inner.text ++ a.points.text))))

theorem text_eq : a.text = a.upToPoints ++ a.tail := by
  simp only [text, upToPoints, List.append_assoc]

theorem length_upToPoints : a.upToPoints.length = a.pointsStop := by
  simp only [upToPoints, pointsStop, pointsStart, numberStop, numberStart, List.length_append,
    Nat.add_assoc]

def withTail (tail : Text) : AnnotationPhrase :=
  { a with tail }

theorem applyAll_withTail (tail : Text) :
    Replacement.applyAll [⟨⟨a.pointsStop, a.text.length⟩, tail⟩] a.text = (a.withTail tail).text := by
  have hstop : a.text.length = a.upToPoints.length + a.tail.length := by
    rw [text_eq, List.length_append]
  have hwritten := @Replacement.applyAll_singleton a.upToPoints a.tail tail [] _ _
    a.length_upToPoints.symm hstop
  rw [List.append_nil, List.append_nil, ← text_eq] at hwritten
  rw [hwritten, text_eq (a.withTail tail)]
  rfl

theorem take_pointsStop_withTail (tail : Text) :
    (a.withTail tail).text.take a.pointsStop = a.text.take a.pointsStop := by
  rw [text_eq, text_eq, ← length_upToPoints, List.take_left]
  exact List.take_left

/-- The remark that is read starts at the first character behind the points that is not a blank. -/
theorem map_slice_remark :
    a.remark.map (·.slice a.text) = if a.tail.isAllBlank then none else some a.tail.trimStart := by
  unfold remark
  split
  · rfl
  · have hpass : (Cursor.ofLine a.text).Passes a.upToPoints ⟨a.pointsStop, a.tail⟩ :=
      Cursor.passes_ofLine_iff.mpr ⟨a.text_eq, a.length_upToPoints.symm⟩
    have hslice := Cursor.slice_lineEnd hpass (a.tail.takeWhile isBlank).length
    have hdrop : a.tail.drop (a.tail.takeWhile isBlank).length = a.tail.trimStart := by
      have hsplit := @List.takeWhile_append_dropWhile _ isBlank a.tail
      calc a.tail.drop (a.tail.takeWhile isBlank).length
          = (a.tail.takeWhile isBlank ++ a.tail.dropWhile isBlank).drop
              (a.tail.takeWhile isBlank).length := by rw [hsplit]
        _ = a.tail.trimStart := List.drop_left
    exact congrArg some (hslice.trans hdrop)

/-- A remark that is written is read back. -/
theorem map_slice_remark_withTail (newText : Text) :
    (a.withTail (Text.behindPoints newText.remark?)).remark.map
        (·.slice (a.withTail (Text.behindPoints newText.remark?)).text) = newText.remark? := by
  rw [map_slice_remark]
  change (if (Text.behindPoints newText.remark?).isAllBlank then none
    else some (Text.behindPoints newText.remark?).trimStart) = _
  unfold Text.remark?
  split
  · rfl
  · next hne =>
      obtain ⟨c, s, hs⟩ := List.exists_cons_of_ne_nil hne
      have hc : isBlank c = false := newText.head_fold c (by rw [hs]; rfl)
      have hspace : isBlank ' ' = true := rfl
      simp [hs, Text.behindPoints, Text.isAllBlank, Text.trimStart, hc, hspace]

end Grammar.AnnotationPhrase

namespace Document

variable {doc : Document} {config : Config} {n : Nat} {line : Text} {a : Annotation}

/-- A remark that the line shows already is not written again. -/
theorem edit_remark_eq_self (hline : doc.line? n = some line) (ha : Annotation.ofLine? line = some a)
    {points : Span} (hpoints : a.coordinates = some points) {newText : Text}
    (hsame : a.text.map (·.slice line) = newText.remark?) :
    doc.edit config n (.setText newText) = .ok doc := by
  have hplan := Annotation.setText?_eq hpoints line newText
  rw [if_pos hsame] at hplan
  exact edit_eq_self rfl hline ( Annotation.statement_of_ofLine? ha) hplan rfl

/-- With points on the line, the remark of the new text comes to stand behind them, and nothing else is changed. -/
theorem edit_remark_of_points (hline : doc.line? n = some line)
    (ha : Annotation.ofLine? line = some a) {points : Span} (hpoints : a.coordinates = some points)
    (newText : Text) : ∃ doc' line' a', doc.edit config n (.setText newText) = .ok doc' ∧
      doc.Writes n line' doc' ∧ line'.take points.stop = line.take points.stop ∧
      Annotation.ofLine? line' = some a' ∧ a'.number = a.number ∧ a'.coordinates = some points ∧
      a'.text.map (·.slice line') = newText.remark? ∧
      doc'.edit config n (.setText newText) = .ok doc' := by
  have hstatement := Annotation.statement_of_ofLine? ha
  by_cases hsame : a.text.map (·.slice line) = newText.remark?
  · have hedit : doc.edit config n (.setText newText) = .ok doc :=
      edit_remark_eq_self hline ha hpoints hsame
    exact ⟨doc, line, a, hedit, ⟨hline, fun _ _ => rfl, rfl⟩, rfl, ha, rfl, hpoints, hsame, hedit⟩
  · obtain ⟨phrase, rfl, hphrase⟩ := Grammar.exists_annotationPhrase ha (by rw [hpoints]; rfl)
    obtain rfl := Statement.annotation.inj hphrase
    obtain rfl := Option.some.inj hpoints
    have hplan := Annotation.setText?_eq hpoints phrase.text newText
    rw [if_neg hsame] at hplan
    obtain ⟨doc', hedit, hwrites⟩ :=
      @exists_edit doc config n (.setText newText) _ _ _ rfl hline hstatement hplan
    rw [phrase.applyAll_withTail] at hwrites
    have hread := (phrase.withTail (Text.behindPoints newText.remark?)).ofLine?_text
    obtain ⟨a', ha', heq⟩ := Option.map_eq_some_iff.mp hread
    obtain rfl := Statement.annotation.inj heq
    have hremark := phrase.map_slice_remark_withTail newText
    exact ⟨doc', _, _, hedit, hwrites, phrase.take_pointsStop_withTail _, ha', rfl, rfl, hremark,
      edit_remark_eq_self hwrites.line ha' rfl hremark⟩

/-- Writing a remark keeps the line up to the end of the points, and the number and the points are read as
before. The remark that is read is the text that was given, folded, or none if the text is blank; after
that there is nothing left to write. Without points no text can be written. -/
theorem edit_remark (hline : doc.line? n = some line) (ha : Annotation.ofLine? line = some a)
    (newText : Text) :
    (a.coordinates = none →
      doc.edit config n (.setText newText) = .error (.noCoordinates n Kind.annotation)) ∧
    ∀ points, a.coordinates = some points →
      ∃ doc' line' a', doc.edit config n (.setText newText) = .ok doc' ∧ doc.Writes n line' doc' ∧
        line'.take points.stop = line.take points.stop ∧ Annotation.ofLine? line' = some a' ∧
        a'.number = a.number ∧ a'.coordinates = some points ∧
        a'.text.map (·.slice line') = (if newText.fold = [] then none else some newText.fold) ∧
        doc'.edit config n (.setText newText) = .ok doc' := by
  refine ⟨fun hnone => ?_, fun points hpoints => edit_remark_of_points hline ha hpoints newText⟩
  have hlocate : doc.locate n none Kind.annotation
      = .ok ⟨n, line, Statement.annotation a, none⟩ :=
    locate_eq_ok_iff.mpr ⟨line, _, hline, Annotation.statement_of_ofLine? ha, rfl⟩
  have hplan : a.setText? line newText = none := by
    unfold Annotation.setText?
    rw [hnone, Option.map_none]
  simp only [edit, Edit.unsupported?, Edit.expected, Edit.kind, hlocate, Edit.plan?, hplan]

/-- A text with a line break and a bracket takes the place of another one behind two points. -/
theorem edit_remark_two_points :
    let line : Text := "annotation 1 [[0.1, 0.2], [0.3,0.4]]  old".toList
    let newText : Text := "a\n[0.5, 0.6] ".toList
    let doc : Document := ⟨[line]⟩
    ∃ a doc' line' a', Annotation.ofLine? line = some a ∧ a.coordinates = some ⟨13, 36⟩ ∧
      doc.edit {} 1 (.setText newText) = .ok doc' ∧ doc.Writes 1 line' doc' ∧
      line'.take 36 = line.take 36 ∧ Annotation.ofLine? line' = some a' ∧ a'.number = a.number ∧
      a'.coordinates = some ⟨13, 36⟩ ∧
      a'.text.map (·.slice line') = some "a [0.5, 0.6]".toList ∧
      doc'.edit {} 1 (.setText newText) = .ok doc' := by
  intro line newText doc
  obtain ⟨a, ha, hpoints⟩ : ∃ a, Annotation.ofLine? line = some a ∧ a.coordinates = some ⟨13, 36⟩ :=
    Option.bind_eq_some_iff.mp (by decide +kernel)
  have hfold : (if newText.fold = [] then none else some newText.fold)
      = some "a [0.5, 0.6]".toList := by decide +kernel
  obtain ⟨-, hwritten⟩ := @edit_remark doc {} 1 line a rfl ha newText
  obtain ⟨doc', line', a', hedit, hwrites, hkept, ha', hnumber, hpoints', hremark, hsettled⟩ :=
    hwritten _ hpoints
  exact ⟨a, doc', line', a', ha, hpoints, hedit, hwrites, hkept, ha', hnumber, hpoints',
    hremark.trans hfold, hsettled⟩

end Document

end WardleyMap
