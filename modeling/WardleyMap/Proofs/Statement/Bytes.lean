import WardleyMap.Proofs.Statement.Spans
import WardleyMap.Proofs.Text.Bytes

/-!
# Columns as the host counts them

The host knows a place by what is left of the line there: it counts the bytes of the line and takes away those
of the rest. It trims a stretch of the line by the same subtraction, once at either end. Nothing in such a
difference says that a character starts there, or that it is not below zero. It is the byte offset of a column
all the same, because what is left is always the end of the line that a reader has passed through
(`Cursor.Passes.byteLength_sub`), and blanks are taken away by whole characters (`Cursor.Passes.trimBytes?_eq`).
-/

namespace WardleyMap

open Text

namespace Span

def bytes (line : Text) (span : Span) : Nat × Nat :=
  (line.byteOffset span.start, line.byteOffset span.stop)

/-- Trims the bytes from `start` to `stop` as the host does, by how much shorter trimming makes them at either end.
There is no result if the line is sliced where no character starts. -/
def trimBytes? (line : Text) (start stop : Nat) : Option (Nat × Nat) :=
  (ofBytes? line start stop).map fun span =>
    let segment := span.slice line
    let lead := segment.byteLength - segment.trimStart.byteLength
    let trail := segment.byteLength - segment.trimEnd.byteLength
    if lead = segment.byteLength then (start, start) else (start + lead, stop - trail)

end Span

namespace Text.Trims

variable {before name after : Text}

theorem trimStart_eq (h : Trims before name after) (hname : name ≠ []) :
    trimStart (before ++ name ++ after) = name ++ after := by
  rw [List.append_assoc]
  refine dropWhile_append_of_head (isAllBlank_iff.mp h.before_blank) fun c hc => h.head c ?_
  obtain ⟨d, name, rfl⟩ := List.exists_cons_of_ne_nil hname
  exact hc

theorem trimEnd_eq (h : Trims before name after) (hname : name ≠ []) :
    trimEnd (before ++ name ++ after) = before ++ name := by
  refine trimEnd_append h.after_blank fun c hc => h.last c ?_
  rwa [List.getLast?_append_of_ne_nil _ hname] at hc

theorem lead_eq (h : Trims before name after) (hname : name ≠ []) :
    byteLength (before ++ name ++ after) - byteLength (trimStart (before ++ name ++ after)) = before.byteLength := by
  rw [h.trimStart_eq hname, List.append_assoc, byteLength_append, Nat.add_sub_cancel]

theorem trail_eq (h : Trims before name after) (hname : name ≠ []) :
    byteLength (before ++ name ++ after) - byteLength (trimEnd (before ++ name ++ after)) = after.byteLength := by
  rw [h.trimEnd_eq hname, byteLength_append, Nat.add_sub_cancel_left]

/-- Not all of the text is blank. -/
theorem lead_ne (hname : name ≠ []) : before.byteLength ≠ byteLength (before ++ name ++ after) := by
  have hpos := byteLength_pos hname
  rw [byteLength_append, byteLength_append]
  omega

end Text.Trims

namespace Cursor

variable {c c' : Cursor} {before line text : Text}

/-- Wherever a reader has come to in the line, the bytes of the line less those that are left are the byte offset
of its column. -/
theorem Passes.byteLength_sub (h : (ofLine line).Passes before c) :
    c.rest.byteLength ≤ line.byteLength ∧
      line.byteLength - c.rest.byteLength = line.byteOffset c.col := by
  obtain ⟨hline, hcol⟩ := passes_ofLine_iff.mp h
  rw [hcol, hline, byteOffset_left, byteLength_append]
  exact ⟨Nat.le_add_left _ _, Nat.add_sub_cancel _ _⟩

/-- Behind `text`, the byte offset is larger by the bytes that `text` takes. -/
theorem Passes.byteOffset_col (hbefore : (ofLine line).Passes before c) (h : c.Passes text c') :
    line.byteOffset c'.col = line.byteOffset c.col + text.byteLength := by
  obtain ⟨hline, hcol⟩ := passes_ofLine_iff.mp hbefore
  have hdrop : line.drop c.col = c.rest := by rw [hcol, hline, List.drop_left]
  rw [h.col, byteOffset_add, hdrop, h.rest, byteOffset_left]

theorem Passes.ofBytes?_eq (hbefore : (ofLine line).Passes before c) (h : c.Passes text c') :
    Span.ofBytes? line (line.byteOffset c.col) (line.byteOffset c'.col) = some ⟨c.col, c'.col⟩ := by
  obtain ⟨hline, hcol⟩ := passes_ofLine_iff.mp (hbefore.trans h)
  have hlength : line.length = (before ++ text).length + c'.rest.length := by
    rw [hline]
    exact List.length_append
  refine @Span.ofBytes?_byteOffset line ⟨c.col, c'.col⟩ h.col_le ?_
  rw [hcol, hlength]
  exact Nat.le_add_right _ _

/-- Trimmed in bytes, a stretch of the line is left with the bytes of its trimmed span. -/
theorem Passes.trimBytes?_eq (hbefore : (ofLine line).Passes before c) (h : c.Passes text c') :
    Span.trimBytes? line (line.byteOffset c.col) (line.byteOffset c'.col)
      = some ((Span.ofTrimmed c.col text).bytes line) := by
  obtain ⟨blanks, after, htext, htrims⟩ := exists_trims text
  generalize text.trim = name at htext htrims
  subst htext
  rw [Span.trimBytes?, hbefore.ofBytes?_eq h, Option.map_some, slice_of_passes hbefore h,
    htrims.ofTrimmed_eq]
  dsimp only
  by_cases hname : name = []
  · -- nothing is left, and all of the blanks are taken away in front
    subst hname
    obtain rfl := htrims.before_nil rfl
    have hblank : trimStart ([] ++ [] ++ after) = [] :=
      List.dropWhile_eq_nil_iff.mpr (isAllBlank_iff.mp htrims.after_blank)
    rw [hblank, if_pos (show _ - byteLength [] = _ from Nat.sub_zero _)]
    rfl
  · -- the host goes on behind the blanks, and stops as many bytes before the end as the other blanks take
    have hblanks : c.Passes blanks ⟨c.col + blanks.length, name ++ after ++ c'.rest⟩ :=
      ⟨by rw [h.rest]; simp only [List.append_assoc], rfl⟩
    have hwritten : Passes ⟨c.col + blanks.length, name ++ after ++ c'.rest⟩ name
        ⟨c.col + blanks.length + name.length, after ++ c'.rest⟩ :=
      ⟨List.append_assoc .., rfl⟩
    have hbehind : Passes ⟨c.col + blanks.length + name.length, after ++ c'.rest⟩ after c' := by
      refine ⟨rfl, ?_⟩
      rw [h.col]
      simp only [List.length_append, Nat.add_assoc]
    have hstart := hbefore.byteOffset_col hblanks
    have hstop := (hbefore.trans (hblanks.trans hwritten)).byteOffset_col hbehind
    rw [htrims.lead_eq hname, htrims.trail_eq hname, if_neg (Trims.lead_ne hname), ← hstart, hstop,
      Nat.add_sub_cancel]
    rfl

/-- A bare name stands between the bytes that the host finds by trimming the stretch it cuts out for it. -/
theorem trimBytes?_bareName (hbefore : (ofLine line).Passes before c) (h : c.Passes text c') :
    Span.trimBytes? line (line.byteOffset c.col) (line.byteOffset c'.col)
      = some ((c.bareName c'.col).span.bytes line) := by
  rw [hbefore.trimBytes?_eq h, bareName]
  change _ = some ((Span.ofTrimmed c.col (c.clip c'.col).rest).bytes line)
  rw [h.clip_eq]

theorem bareName_clip {col stop : Nat} (hcol : col ≤ stop) : (c.clip stop).bareName col = c.bareName col := by
  have htake : (c.rest.take (stop - c.col)).take (col - c.col) = c.rest.take (col - c.col) := by
    rw [List.take_take, Nat.min_eq_left (Nat.sub_le_sub_right hcol c.col)]
  simp only [bareName, clip, htake]

/-- The bare names of an `evolve` line are cut out of what precedes the label, which makes no difference to them. -/
theorem trimBytes?_bareName_clip (hbefore : (ofLine line).Passes before c) (h : c.Passes text c') {stop : Nat}
    (hstop : c'.col ≤ stop) :
    Span.trimBytes? line (line.byteOffset c.col) (line.byteOffset c'.col)
      = some (((c.clip stop).bareName c'.col).span.bytes line) := by
  rw [bareName_clip hstop, trimBytes?_bareName hbefore h]

end Cursor

namespace Span

variable {s : Text}

theorem ofTrimmed_of_isAllBlank (h : s.isAllBlank = true) (col : Nat) : ofTrimmed col s = ⟨col, col⟩ := by
  have htrim : s.trim = [] := by
    rw [trim, trimStart, List.dropWhile_eq_nil_iff.mpr (isAllBlank_iff.mp h)]
    rfl
  rw [ofTrimmed, htrim]

/-- What trimming leaves of a text that is not blank starts at its first character that is not blank. -/
theorem ofTrimmed_bounds (h : s.isAllBlank = false) (col : Nat) :
    (ofTrimmed col s).start = col + s.indent ∧ (ofTrimmed col s).start < (ofTrimmed col s).stop ∧
      (ofTrimmed col s).stop ≤ col + s.length := by
  obtain ⟨before, after, hs, htrims⟩ := exists_trims s
  have hspan := htrims.ofTrimmed_eq col
  rw [← hs] at hspan
  cases hname : s.trim with
  | nil =>
      rw [hs, hname, htrims.before_nil hname, isAllBlank_append, htrims.after_blank] at h
      exact absurd h (by decide)
  | cons ch name =>
      have hstart : (ofTrimmed col s).start = col + s.indent := by rw [ofTrimmed, hname]
      have hlength := congrArg List.length hs
      rw [hname] at hspan hlength
      simp only [List.length_append, List.length_cons] at hlength
      refine ⟨hstart, ?_, ?_⟩
      · rw [hspan]
        exact Nat.lt_add_of_pos_right (Nat.succ_pos _)
      · rw [hspan, hlength]
        simp only [List.length_cons]
        omega

end Span

/-- The remark starts at the byte where the trimmed rest of the line starts, and is absent if nothing is left. -/
theorem Annotation.trimBytes?_textAt {line before : Text} {c : Cursor} (h : (Cursor.ofLine line).Passes before c) :
    (textAt c).map (Span.bytes line)
      = (Span.trimBytes? line (line.byteOffset c.col) line.byteLength).bind fun bytes =>
          if bytes.1 = bytes.2 then none else some (bytes.1, line.byteLength) := by
  have hrest : c.Passes c.rest ⟨c.lineEnd, []⟩ := ⟨(List.append_nil _).symm, rfl⟩
  have hend : c.lineEnd = line.length := by
    rw [h.lineEnd, Cursor.lineEnd_ofLine]
  have htrim := h.trimBytes?_eq hrest
  rw [hend] at htrim
  rw [byteLength, htrim, Option.bind_some, textAt, hend]
  cases hblank : c.rest.isAllBlank with
  | true =>
      rw [if_pos rfl, Span.ofTrimmed_of_isAllBlank hblank]
      exact (if_pos rfl).symm
  | false =>
      obtain ⟨hstart, hlt, hstop⟩ := Span.ofTrimmed_bounds hblank c.col
      have hlength : (Span.ofTrimmed c.col c.rest).start < line.length := hlt.trans_le (hend ▸ hstop)
      have hne : line.byteOffset (Span.ofTrimmed c.col c.rest).start
          ≠ line.byteOffset (Span.ofTrimmed c.col c.rest).stop := (byteOffset_lt hlt hlength).ne
      rw [if_neg Bool.false_ne_true, ← hstart]
      exact (if_neg hne).symm

end WardleyMap
