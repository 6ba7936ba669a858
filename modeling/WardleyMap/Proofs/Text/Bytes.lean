import Mathlib.Data.Option.Basic
import WardleyMap.Text.Cursor

/-!
# Places counted in bytes

The host counts the bytes of a text, and not every count of bytes is a place in it: a place between the
bytes of one character is none, and neither is one behind the end. `Text.column?` finds the column that
a count of bytes stands for, and `Span.ofBytes?` the span between two of them; where either finds nothing,
slicing the text there fails. The byte offsets of columns are the places.
-/

namespace WardleyMap

namespace Text

/-- The column that the byte offset stands for, if a character starts there or the text ends there. -/
def column? : (s : Text) → (offset : Nat) → Option Nat
  | _, 0 => some 0
  | [], _ + 1 => none
  | c :: s, offset + 1 =>
    if c.utf8Size ≤ offset + 1 then (column? s (offset + 1 - c.utf8Size)).map (· + 1) else none

@[simp]
theorem byteOffset_zero (s : Text) : s.byteOffset 0 = 0 := rfl

@[simp]
theorem byteOffset_succ (c : Char) (s : Text) (col : Nat) :
    byteOffset (c :: s) (col + 1) = c.utf8Size + s.byteOffset col := by
  rw [byteOffset, List.take_succ_cons, ← List.singleton_append, String.ofList_append,
    String.utf8ByteSize_append, ← String.singleton_eq_ofList, String.utf8ByteSize_singleton]
  rfl

theorem byteOffset_nil (col : Nat) : byteOffset [] col = 0 := by
  rw [byteOffset, List.take_nil]
  rfl

theorem byteOffset_add (s : Text) (m n : Nat) :
    s.byteOffset (m + n) = s.byteOffset m + byteOffset (s.drop m) n := by
  induction s generalizing m with
  | nil => simp [byteOffset_nil]
  | cons c s ih =>
      cases m with
      | zero => simp
      | succ m =>
          rw [Nat.add_right_comm, byteOffset_succ, byteOffset_succ, List.drop_succ_cons, ih m, Nat.add_assoc]

theorem byteOffset_pos {s : Text} {n : Nat} (hs : s ≠ []) (hn : 0 < n) : 0 < s.byteOffset n := by
  obtain ⟨c, s, rfl⟩ := List.exists_cons_of_ne_nil hs
  obtain ⟨n, rfl⟩ := Nat.exists_eq_add_one_of_ne_zero (Nat.ne_of_gt hn)
  rw [byteOffset_succ]
  exact Nat.add_pos_left c.utf8Size_pos _

theorem byteOffset_lt {s : Text} {col stop : Nat} (h : col < stop) (hcol : col < s.length) :
    s.byteOffset col < s.byteOffset stop := by
  obtain ⟨n, rfl⟩ := Nat.exists_eq_add_of_lt h
  have hne : s.drop col ≠ [] := by
    rw [← List.length_pos_iff, List.length_drop]
    omega
  rw [Nat.add_assoc, byteOffset_add]
  exact Nat.lt_add_of_pos_right (byteOffset_pos hne (Nat.succ_pos n))

/-- An offset in a text that starts with `c` is zero, or it lies behind the bytes of `c`. -/
theorem column?_cons_of_pos {c : Char} {s : Text} {offset : Nat} (h : 0 < offset) :
    column? (c :: s) offset
      = if c.utf8Size ≤ offset then (s.column? (offset - c.utf8Size)).map (· + 1) else none := by
  obtain ⟨n, rfl⟩ := Nat.exists_eq_add_one_of_ne_zero (Nat.ne_of_gt h)
  rfl

/-- The places in a text are the byte offsets of its columns. -/
theorem column?_eq_some_iff {s : Text} {offset col : Nat} :
    s.column? offset = some col ↔ col ≤ s.length ∧ s.byteOffset col = offset := by
  induction s generalizing offset col with
  | nil =>
      cases offset with
      | zero => simp [column?, byteOffset_nil, eq_comm]
      | succ offset => simp [column?, byteOffset_nil]
  | cons c s ih =>
      have hsize := c.utf8Size_pos
      cases col with
      | zero =>
          rcases Nat.eq_zero_or_pos offset with rfl | hpos
          · simp [column?]
          · rw [column?_cons_of_pos hpos, byteOffset_zero]
            refine iff_of_false ?_ fun h => Nat.ne_of_lt hpos h.2
            split <;> simp
      | succ col =>
          rw [byteOffset_succ, List.length_cons, Nat.add_le_add_iff_right]
          rcases Nat.eq_zero_or_pos offset with rfl | hpos
          · refine iff_of_false (by simp [column?]) fun h => ?_
            omega
          · rw [column?_cons_of_pos hpos]
            split
            · next hle =>
                rw [Option.map_eq_some_iff]
                simp only [Nat.add_right_cancel_iff, exists_eq_right, ih]
                exact and_congr_right fun _ => by omega
            · next hlt => exact iff_of_false (by simp) (by omega)

theorem column?_byteOffset {s : Text} {col : Nat} (h : col ≤ s.length) :
    s.column? (s.byteOffset col) = some col :=
  column?_eq_some_iff.mpr ⟨h, rfl⟩

/-- Texts that agree up to a column have it at the same offset. -/
theorem byteOffset_congr {s t : Text} {stop col : Nat} (h : s.take stop = t.take stop) (hcol : col ≤ stop) :
    s.byteOffset col = t.byteOffset col := by
  have htake : s.take col = t.take col := by
    rw [← Nat.min_eq_left hcol, ← List.take_take, h, List.take_take]
  rw [byteOffset, byteOffset, htake]

def byteLength (s : Text) : Nat :=
  s.byteOffset s.length

theorem byteOffset_left (s t : Text) : (s ++ t).byteOffset s.length = s.byteLength :=
  byteOffset_congr (by simp) (Nat.le_refl _)

theorem byteLength_append (s t : Text) : (s ++ t).byteLength = s.byteLength + t.byteLength := by
  rw [byteLength, List.length_append, byteOffset_add, byteOffset_left, List.drop_left]
  rfl

theorem byteLength_pos {s : Text} (h : s ≠ []) : 0 < s.byteLength :=
  byteOffset_pos h (List.length_pos_iff.mpr h)

end Text

/-- The span between two byte offsets of the text, if both are places in it and the second is not before
the first. -/
def Span.ofBytes? (s : Text) (start stop : Nat) : Option Span :=
  (s.column? start).bind fun i =>
    (s.column? stop).bind fun j => if i ≤ j then some ⟨i, j⟩ else none

theorem Span.ofBytes?_byteOffset {s : Text} {span : Span} (h : span.start ≤ span.stop)
    (hstop : span.stop ≤ s.length) :
    Span.ofBytes? s (s.byteOffset span.start) (s.byteOffset span.stop) = some span := by
  rw [ofBytes?, Text.column?_byteOffset (Nat.le_trans h hstop), Option.bind_some,
    Text.column?_byteOffset hstop, Option.bind_some, if_pos h]

end WardleyMap
