import WardleyMap.Locate
import WardleyMap.Proofs.Document.Lines

/-!
# Lines that end in carriage returns

A map text may break its lines by a line feed, or by a carriage return and a line feed. `Text.withReturns` takes
the first form to the second one. In the document it puts a carriage return behind every line but the last, which
no line feed follows. If no line held a carriage return before, all of them keep their contents, so whatever is
looked up by line number or by name is found on the same line in both forms. And since a line that is written
ends as it did before, it comes to the same to write the line in either form.
-/

namespace WardleyMap

namespace Text

def withReturns (s : Text) : Text :=
  s.flatMap fun c => if c = '\n' then ['\r', '\n'] else [c]

theorem withReturns_cons_feed (s : Text) :
    withReturns ('\n' :: s) = '\r' :: '\n' :: s.withReturns := rfl

theorem withReturns_cons {c : Char} (hc : c ≠ '\n') (s : Text) :
    withReturns (c :: s) = c :: s.withReturns := by
  simp [withReturns, hc]

end Text

namespace Document

/-- Puts a carriage return behind every line but the last. -/
def endAll : List Text → List Text
  | [] => []
  | [line] => [line]
  | line :: next :: rest => (line ++ ['\r']) :: endAll (next :: rest)

def withReturns (doc : Document) : Document :=
  ⟨endAll doc.lines⟩

def contents (doc : Document) : List Text :=
  doc.lines.map content

def IsFeedOnly (doc : Document) : Prop :=
  ∀ stored ∈ doc.lines, '\r' ∉ stored

variable {doc a b : Document}

/-! ### One line -/

/-- What is put behind line `i`, counted from zero, of `count` lines. -/
def lineReturn (count i : Nat) : Text :=
  if i + 1 < count then ['\r'] else []

theorem getElem?_endAll (lines : List Text) (i : Nat) :
    (endAll lines)[i]? = lines[i]?.map (· ++ lineReturn lines.length i) := by
  unfold lineReturn
  induction lines using endAll.induct generalizing i with
  | case1 => rfl
  | case2 line => cases i <;> simp [endAll]
  | case3 line next rest ih =>
      cases i with
      | zero => simp [endAll]
      | succ i =>
          rw [endAll, List.getElem?_cons_succ, List.getElem?_cons_succ, ih]
          simp only [List.length_cons, Nat.add_lt_add_iff_right]

theorem length_endAll (lines : List Text) : (endAll lines).length = lines.length := by
  induction lines using endAll.induct with
  | case1 | case2 => rfl
  | case3 line next rest ih => simp only [endAll, List.length_cons, ih]

theorem endAll_set (lines : List Text) (i : Nat) (line : Text) :
    endAll (lines.set i line) = (endAll lines).set i (line ++ lineReturn lines.length i) := by
  apply List.ext_getElem?
  intro j
  rw [getElem?_endAll, List.length_set, List.getElem?_set, List.getElem?_set, length_endAll,
    getElem?_endAll]
  by_cases hj : i = j
  · subst hj
    by_cases hi : i < lines.length <;> simp [hi]
  · simp [hj]

theorem content_of_not_mem {stored : Text} (h : '\r' ∉ stored) : content stored = stored :=
  if_neg fun hlast => h (List.mem_of_getLast? hlast)

theorem ending_of_not_mem {stored : Text} (h : '\r' ∉ stored) : ending stored = [] :=
  if_neg fun hlast => h (List.mem_of_getLast? hlast)

theorem content_append_lineReturn {stored : Text} (h : '\r' ∉ stored) (count i : Nat) :
    content (stored ++ lineReturn count i) = stored := by
  unfold lineReturn
  split
  · simp [content]
  · rw [List.append_nil, content_of_not_mem h]

theorem ending_append_lineReturn {stored : Text} (h : '\r' ∉ stored) (count i : Nat) :
    ending (stored ++ lineReturn count i) = lineReturn count i := by
  have hsplit := content_append_ending (stored ++ lineReturn count i)
  rw [content_append_lineReturn h] at hsplit
  exact List.append_cancel_left hsplit

/-! ### The same contents -/

theorem contents_withReturns (h : doc.IsFeedOnly) : doc.withReturns.contents = doc.contents := by
  apply List.ext_getElem?
  intro i
  rw [contents, contents, List.getElem?_map, List.getElem?_map, withReturns, getElem?_endAll]
  cases hline : doc.lines[i]? with
  | none => rfl
  | some line =>
      have hreturn := h line (List.mem_of_getElem? hline)
      simp only [Option.map_some, content_append_lineReturn hreturn, content_of_not_mem hreturn]

theorem line?_congr (h : a.contents = b.contents) : a.line? = b.line? := by
  funext n
  cases n with
  | zero => rfl
  | succ i =>
      have hline := congrArg (·[i]?) h
      simp only [contents, List.getElem?_map] at hline
      exact hline

theorem numberFrom_congr {start : Nat} {lines others : List Text}
    (h : lines.map content = others.map content) : numberFrom start lines = numberFrom start others := by
  induction lines generalizing start others with
  | nil =>
      obtain rfl : others = [] := List.map_eq_nil_iff.mp h.symm
      rfl
  | cons line lines ih =>
      obtain ⟨other, others, rfl, hhead, htail⟩ := List.map_eq_cons_iff.mp h.symm
      rw [numberFrom, numberFrom, ih htail.symm, hhead]

theorem locate_congr (h : a.contents = b.contents) : a.locate = b.locate := by
  funext n expected kind
  rw [locate, locate, line?_congr h]

theorem findStatement_congr (h : a.contents = b.contents) : a.findStatement = b.findStatement := by
  funext kind name
  have hnumbered : a.numbered = b.numbered := numberFrom_congr h
  rw [findStatement, findStatement, hnumbered]

/-! ### Writing a line -/

/-- Writing a line of the text with carriage returns leaves the carriage return at its end. -/
theorem withLine?_withReturns (h : doc.IsFeedOnly) (n : Nat) (new : Text) :
    doc.withReturns.withLine? n new = (doc.withLine? n new).map withReturns := by
  cases n with
  | zero => rfl
  | succ i =>
      simp only [withLine?, stored?, withReturns, getElem?_endAll]
      cases hline : doc.lines[i]? with
      | none => rfl
      | some stored =>
          have hreturn := h stored (List.mem_of_getElem? hline)
          simp only [Option.map_some, Nat.add_sub_cancel, ending_of_not_mem hreturn,
            ending_append_lineReturn hreturn, List.append_nil]
          rw [withReturns, endAll_set]

theorem withReturns_injective : Function.Injective withReturns := by
  intro a b h
  have hlines : endAll a.lines = endAll b.lines := congrArg lines h
  have hlength : a.lines.length = b.lines.length := by
    rw [← length_endAll, hlines, length_endAll]
  suffices a.lines = b.lines by
    cases a
    cases b
    exact congrArg mk this
  apply List.ext_getElem?
  intro i
  have hline := congrArg (·[i]?) hlines
  simp only [getElem?_endAll, hlength] at hline
  exact Option.map_injective (List.append_left_injective _) hline

/-! ### The text -/

theorem endAll_modifyHead (lines : List Text) (c : Char) :
    endAll (lines.modifyHead (c :: ·)) = (endAll lines).modifyHead (c :: ·) := by
  cases lines with
  | nil => rfl
  | cons line lines => cases lines <;> rfl

/-- The lines of a text with carriage returns are the lines of the text, each but the last with one at its end. -/
theorem split_withReturns (s : Text) :
    s.withReturns.split (· == '\n') = endAll (s.split (· == '\n')) := by
  induction s with
  | nil => rfl
  | cons c s ih =>
      by_cases hc : c = '\n'
      · subst hc
        obtain ⟨piece, pieces, hs⟩ := Text.exists_split_eq_cons (· == '\n') s
        rw [Text.withReturns_cons_feed, Text.split_cons_of_neg (by decide),
          Text.split_cons_of_pos (by decide), Text.split_cons_of_pos (by decide), ih, hs]
        rfl
      · rw [Text.withReturns_cons hc, Text.split_cons_of_neg (by simpa using hc),
          Text.split_cons_of_neg (by simpa using hc), ih, endAll_modifyHead]

theorem ofText_withReturns (text : Text) : ofText text.withReturns = (ofText text).withReturns :=
  congrArg mk (split_withReturns text)

theorem IsCut.toText_withReturns (h : doc.IsCut) : doc.withReturns.toText = doc.toText.withReturns := by
  conv_lhs => rw [← h.ofText_toText]
  rw [← ofText_withReturns, toText_ofText]

theorem isFeedOnly_ofText {text : Text} (h : '\r' ∉ text) : (ofText text).IsFeedOnly := by
  intro stored hstored hreturn
  exact h (Text.mem_of_mem_split hstored '\r' hreturn).1

end Document

end WardleyMap
