import Mathlib.Data.List.Basic
import WardleyMap.Document

/-!
# Lines and the text they make up

Cutting a text at its line feeds and setting the pieces side by side again are inverse to each other,
as long as no piece holds a line feed. So a document and its text carry the same information.
`Document.IsCut` is the invariant: there is a line, and no line holds a line feed.

Within a stored line, the content and the ending are inverse to setting them side by side, with one
proviso: a content that ends in a carriage return must not be stored without one behind it.
-/

namespace WardleyMap

namespace Text

theorem split_eq_splitOn (s : Text) (ch : Char) : s.split (· == ch) = s.splitOn ch := by
  rw [List.splitOn_eq_splitOnP]
  induction s with
  | nil => rfl
  | cons c s ih => rw [split, List.splitOnP_cons_eq_if_modifyHead, ih]

theorem exists_split_eq_cons (p : Char → Bool) (s : Text) :
    ∃ piece pieces, s.split p = piece :: pieces := by
  induction s with
  | nil => exact ⟨[], [], rfl⟩
  | cons c s ih =>
      obtain ⟨piece, pieces, hs⟩ := ih
      rw [split, hs]
      split
      · exact ⟨[], _, rfl⟩
      · exact ⟨c :: piece, pieces, rfl⟩

theorem split_cons_of_pos {p : Char → Bool} {c : Char} (hc : p c = true) (s : Text) :
    split p (c :: s) = [] :: split p s := by
  rw [split, if_pos hc]

theorem split_cons_of_neg {p : Char → Bool} {c : Char} (hc : ¬p c = true) (s : Text) :
    split p (c :: s) = (split p s).modifyHead (c :: ·) := by
  rw [split, if_neg hc]

/-- The pieces hold what the text holds, but for the characters at which it was cut. -/
theorem flatten_split (s : Text) (p : Char → Bool) : (s.split p).flatten = s.filter (!p ·) := by
  induction s with
  | nil => rfl
  | cons c s ih =>
      by_cases hc : p c = true
      · simp [split_cons_of_pos hc, ih, hc]
      · obtain ⟨piece, pieces, hs⟩ := exists_split_eq_cons p s
        rw [hs, List.flatten_cons] at ih
        simp [split_cons_of_neg hc, hs, hc, ← ih]

theorem mem_of_mem_split {s piece : Text} {p : Char → Bool} (h : piece ∈ s.split p) :
    ∀ c ∈ piece, c ∈ s ∧ p c = false := by
  intro c hc
  have hmem : c ∈ (s.split p).flatten := List.mem_flatten.mpr ⟨piece, h, hc⟩
  rw [flatten_split, List.mem_filter] at hmem
  simpa using hmem

end Text

namespace Document

/-- The document is what cutting some text gives. -/
structure IsCut (doc : Document) : Prop where
  lines_ne_nil : doc.lines ≠ []
  no_feed : ∀ stored ∈ doc.lines, '\n' ∉ stored

theorem isCut_ofText (text : Text) : (ofText text).IsCut := by
  refine ⟨?_, fun stored hstored hfeed => ?_⟩
  · rw [ofText, Text.split_eq_splitOn]
    exact List.splitOn_ne_nil _ _
  · simpa using (Text.mem_of_mem_split hstored '\n' hfeed).2

theorem toText_ofText (text : Text) : (ofText text).toText = text := by
  rw [toText, ofText, Text.split_eq_splitOn]
  exact List.intercalate_splitOn '\n'

theorem ofText_injective : Function.Injective ofText :=
  Function.LeftInverse.injective toText_ofText

theorem IsCut.ofText_toText {doc : Document} (h : doc.IsCut) : ofText doc.toText = doc := by
  rw [ofText, toText, Text.split_eq_splitOn, List.splitOn_intercalate '\n' h.no_feed h.lines_ne_nil]

/-! ### Content and ending -/

theorem content_append_ending (stored : Text) : content stored ++ ending stored = stored := by
  unfold content ending
  split
  · next h =>
      have hne : stored ≠ [] := by
        rintro rfl
        simp at h
      rw [List.getLast?_eq_some_getLast hne] at h
      rw [← Option.some.inj h, List.dropLast_concat_getLast hne]
  · rw [List.append_nil]

theorem ending_eq_nil_or (stored : Text) : ending stored = [] ∨ ending stored = ['\r'] := by
  unfold ending
  split
  · exact Or.inr rfl
  · exact Or.inl rfl

/-- A new content may take the place of an old one: it brings no line feed, and no carriage return at
its end. -/
structure Fits (old new : Text) : Prop where
  no_feed : '\n' ∉ old → '\n' ∉ new
  no_return : old.getLast? ≠ some '\r' → new.getLast? ≠ some '\r'

theorem Fits.refl (text : Text) : Fits text text := ⟨id, id⟩

theorem Fits.trans {a b c : Text} (h : Fits a b) (h' : Fits b c) : Fits a c :=
  ⟨h'.no_feed ∘ h.no_feed, h'.no_return ∘ h.no_return⟩

theorem getLast?_append_ending {stored new : Text} (h : Fits (content stored) new) :
    (new ++ ending stored).getLast? = some '\r' ↔ stored.getLast? = some '\r' := by
  by_cases hstored : stored.getLast? = some '\r'
  · rw [ending, if_pos hstored, List.getLast?_append]
    simp [hstored]
  · have hcontent : (content stored).getLast? ≠ some '\r' := by rwa [content, if_neg hstored]
    have hnew := h.no_return hcontent
    rw [ending, if_neg hstored, List.append_nil]
    simp [hstored, hnew]

theorem ending_append_ending {stored new : Text} (h : Fits (content stored) new) :
    ending (new ++ ending stored) = ending stored := by
  have hlast := getLast?_append_ending h
  by_cases hstored : stored.getLast? = some '\r'
  · rw [ending, if_pos (hlast.mpr hstored), ending, if_pos hstored]
  · rw [ending, if_neg (mt hlast.mp hstored), ending, if_neg hstored]

theorem content_append_ending_of_fits {stored new : Text} (h : Fits (content stored) new) :
    content (new ++ ending stored) = new := by
  have hsplit := content_append_ending (new ++ ending stored)
  rw [ending_append_ending h] at hsplit
  exact List.append_cancel_right hsplit

/-! ### Replacing one line -/

variable {doc doc' : Document} {n : Nat} {new : Text}

theorem stored?_eq_some_iff {stored : Text} :
    doc.stored? n = some stored ↔ 0 < n ∧ doc.lines[n - 1]? = some stored := by
  cases n with
  | zero => simp [stored?]
  | succ i => simp [stored?]

theorem withLine?_eq_some_iff : doc.withLine? n new = some doc' ↔
    ∃ stored, doc.stored? n = some stored ∧
      doc' = ⟨doc.lines.set (n - 1) (new ++ ending stored)⟩ := by
  rw [withLine?, Option.map_eq_some_iff]
  exact exists_congr fun stored => and_congr_right fun _ => eq_comm

theorem exists_withLine? {text : Text} (h : doc.line? n = some text) (new : Text) :
    ∃ doc', doc.withLine? n new = some doc' := by
  obtain ⟨stored, hstored, -⟩ := Option.map_eq_some_iff.mp h
  exact ⟨_, withLine?_eq_some_iff.mpr ⟨stored, hstored, rfl⟩⟩

theorem length_lines_of_withLine? (h : doc.withLine? n new = some doc') :
    doc'.lines.length = doc.lines.length := by
  obtain ⟨stored, -, rfl⟩ := withLine?_eq_some_iff.mp h
  exact List.length_set

theorem stored?_of_withLine?_ne (h : doc.withLine? n new = some doc') {m : Nat} (hm : m ≠ n) :
    doc'.stored? m = doc.stored? m := by
  obtain ⟨stored, hstored, rfl⟩ := withLine?_eq_some_iff.mp h
  have hpos := (stored?_eq_some_iff.mp hstored).1
  cases m with
  | zero => rfl
  | succ i => exact List.getElem?_set_ne (by omega)

theorem stored?_of_withLine? (h : doc.withLine? n new = some doc') : ∃ stored,
    doc.stored? n = some stored ∧ doc'.stored? n = some (new ++ ending stored) := by
  obtain ⟨stored, hstored, rfl⟩ := withLine?_eq_some_iff.mp h
  obtain ⟨hpos, hline⟩ := stored?_eq_some_iff.mp hstored
  refine ⟨stored, hstored, stored?_eq_some_iff.mpr ⟨hpos, ?_⟩⟩
  obtain ⟨hlt, -⟩ := List.getElem?_eq_some_iff.mp hline
  exact List.getElem?_set_self hlt

theorem line?_of_withLine? {text : Text} (h : doc.withLine? n new = some doc')
    (hline : doc.line? n = some text) (hfits : Fits text new) : doc'.line? n = some new := by
  obtain ⟨stored, hstored, hstored'⟩ := stored?_of_withLine? h
  obtain rfl : content stored = text := by simpa [line?, hstored] using hline
  rw [line?, hstored', Option.map_some, content_append_ending_of_fits hfits]

theorem withLine?_self {text : Text} (h : doc.line? n = some text) :
    doc.withLine? n text = some doc := by
  obtain ⟨stored, hstored, rfl⟩ := Option.map_eq_some_iff.mp h
  refine withLine?_eq_some_iff.mpr ⟨stored, hstored, ?_⟩
  obtain ⟨hlt, hget⟩ := List.getElem?_eq_some_iff.mp (stored?_eq_some_iff.mp hstored).2
  rw [content_append_ending, ← hget, List.set_getElem_self]

/-- Of two contents that are written to one line the later one counts. -/
theorem withLine?_withLine? {text : Text} (h : doc.withLine? n new = some doc')
    (hline : doc.line? n = some text) (hfits : Fits text new) (later : Text) :
    doc'.withLine? n later = doc.withLine? n later := by
  obtain ⟨stored, hstored, hstored'⟩ := stored?_of_withLine? h
  obtain ⟨stored₁, hstored₁, rfl⟩ := withLine?_eq_some_iff.mp h
  obtain rfl : stored = stored₁ := Option.some.inj (hstored.symm.trans hstored₁)
  obtain rfl : content stored = text := by simpa [line?, hstored] using hline
  rw [withLine?, withLine?, hstored, hstored', Option.map_some, Option.map_some,
    ending_append_ending hfits, List.set_set]

/-- Writing back what a line held before gives back the document. -/
theorem withLine?_restore {text : Text} (h : doc.withLine? n new = some doc')
    (hline : doc.line? n = some text) (hfits : Fits text new) : doc'.withLine? n text = some doc :=
  (withLine?_withLine? h hline hfits text).trans (withLine?_self hline)

/-- A document changes exactly if the content of the line does. -/
theorem withLine?_eq_self_iff {text : Text} (hline : doc.line? n = some text)
    (h : doc.withLine? n new = some doc') (hfits : Fits text new) : doc' = doc ↔ new = text := by
  constructor
  · rintro rfl
    have hnew := line?_of_withLine? h hline hfits
    exact Option.some.inj (hnew.symm.trans hline)
  · rintro rfl
    exact Option.some.inj (h.symm.trans (withLine?_self hline))

theorem stored?_getD_withLine? (doc : Document) (n : Nat) (new : Text) :
    ((doc.withLine? n new).getD doc).stored? n
      = (doc.stored? n).map fun stored => new ++ ending stored := by
  cases hstored : doc.stored? n with
  | none => simp only [withLine?, hstored, Option.map_none, Option.getD_none]
  | some stored =>
      obtain ⟨doc', hdoc⟩ : ∃ doc', doc.withLine? n new = some doc' :=
        ⟨_, withLine?_eq_some_iff.mpr ⟨stored, hstored, rfl⟩⟩
      obtain ⟨found, hfound, hnew⟩ := stored?_of_withLine? hdoc
      obtain rfl := Option.some.inj (hstored.symm.trans hfound)
      rw [hdoc, Option.getD_some, hnew, Option.map_some]

theorem IsCut.no_feed_of_line? (hdoc : doc.IsCut) {text : Text} (h : doc.line? n = some text) :
    '\n' ∉ text := by
  obtain ⟨stored, hstored, rfl⟩ := Option.map_eq_some_iff.mp h
  have hmem := List.mem_of_getElem? (stored?_eq_some_iff.mp hstored).2
  intro hfeed
  refine hdoc.no_feed stored hmem ?_
  rw [← content_append_ending stored]
  exact List.mem_append_left _ hfeed

theorem IsCut.withLine? (hdoc : doc.IsCut) {text : Text} (hline : doc.line? n = some text)
    (hfits : Fits text new) (h : doc.withLine? n new = some doc') : doc'.IsCut := by
  obtain ⟨stored, -, rfl⟩ := withLine?_eq_some_iff.mp h
  refine ⟨by simpa using hdoc.lines_ne_nil, fun piece hpiece hfeed => ?_⟩
  rcases List.mem_or_eq_of_mem_set hpiece with hpiece | rfl
  · exact hdoc.no_feed piece hpiece hfeed
  · rcases List.mem_append.mp hfeed with hfeed | hfeed
    · exact hfits.no_feed (hdoc.no_feed_of_line? hline) hfeed
    · rcases ending_eq_nil_or stored with hending | hending <;> simp [hending] at hfeed

end Document

end WardleyMap
