import WardleyMap.Edit.Replacement
import WardleyMap.Proofs.Edit.Unbroken

/-!
# Replacing from left to right

An edit replaces its spans from right to left, so that each span still refers to the line as it was. When
the spans follow one another, the result is what copying the line from left to right gives: up to a
span the line, for the span the new text, and then on behind it. `Replacement.splice` is that copy,
and everything outside the spans is visibly kept in it.
-/

namespace WardleyMap

namespace Replacement

/-- The text `rest`, which starts at column `col`, with the spans replaced from left to right. -/
def splice (col : Nat) (rest : Text) : List Replacement → Text
  | [] => rest
  | r :: rs => rest.take (r.span.start - col) ++
      (r.text ++ splice r.span.stop (rest.drop (r.span.stop - col)) rs)

/-- The spans are not empty and follow one another, from column `col` to column `stop`. -/
def Ascending (stop col : Nat) : List Replacement → Prop
  | [] => col ≤ stop
  | r :: rs => col ≤ r.span.start ∧ r.span.start < r.span.stop ∧ Ascending stop r.span.stop rs

theorem Ascending.le {stop col : Nat} {rs : List Replacement} (h : Ascending stop col rs) :
    col ≤ stop := by
  induction rs generalizing col with
  | nil => exact h
  | cons r rs ih =>
      obtain ⟨hstart, hspan, hrest⟩ := h
      have := ih hrest
      omega

theorem Ascending.mono {stop col col' : Nat} {rs : List Replacement} (h : Ascending stop col rs)
    (hle : col' ≤ col) : Ascending stop col' rs := by
  cases rs with
  | nil => exact Nat.le_trans hle h
  | cons r rs => exact ⟨Nat.le_trans hle h.1, h.2⟩

theorem Ascending.le_start {stop col : Nat} {rs : List Replacement} (h : Ascending stop col rs) :
    ∀ r ∈ rs, col ≤ r.span.start := by
  induction rs generalizing col with
  | nil => simp
  | cons r rs ih =>
      obtain ⟨hstart, hspan, hrest⟩ := h
      intro s hs
      rcases List.mem_cons.mp hs with rfl | hs
      · exact hstart
      · have := ih hrest s hs
        omega

theorem Ascending.start_lt {stop col : Nat} {r : Replacement} {rs : List Replacement}
    (h : Ascending stop col (r :: rs)) : ∀ s ∈ rs, r.span.start < s.span.start := by
  obtain ⟨-, hspan, hrest⟩ := h
  exact fun s hs => Nat.lt_of_lt_of_le hspan (hrest.le_start s hs)

theorem place_eq_append {r : Replacement} {rs : List Replacement}
    (h : ∀ s ∈ rs, r.span.start < s.span.start) : place r rs = rs ++ [r] := by
  induction rs with
  | nil => rfl
  | cons s rs ih =>
      have hs := h s List.mem_cons_self
      rw [place, if_neg (by omega), ih fun t ht => h t (List.mem_cons_of_mem _ ht), List.cons_append]

theorem mem_place {r s : Replacement} {rs : List Replacement} :
    s ∈ place r rs ↔ s = r ∨ s ∈ rs := by
  induction rs with
  | nil => simp [place]
  | cons t rs ih =>
      rw [place]
      split
      · simp
      · rw [List.mem_cons, ih, List.mem_cons]
        exact or_left_comm

theorem mem_rightToLeft {s : Replacement} {rs : List Replacement} :
    s ∈ rightToLeft rs ↔ s ∈ rs := by
  induction rs with
  | nil => rfl
  | cons r rs ih => rw [rightToLeft, mem_place, ih, List.mem_cons]

/-- The leftmost of the spans is the last one to be replaced. -/
theorem rightToLeft_cons {r : Replacement} {rs : List Replacement}
    (h : ∀ s ∈ rs, r.span.start < s.span.start) : rightToLeft (r :: rs) = rightToLeft rs ++ [r] :=
  place_eq_append fun s hs => h s (mem_rightToLeft.mp hs)

theorem applyAll_cons {r : Replacement} {rs : List Replacement}
    (h : ∀ s ∈ rs, r.span.start < s.span.start) (line : Text) :
    applyAll (r :: rs) line = r.apply (applyAll rs line) := by
  rw [applyAll, rightToLeft_cons h, List.foldl_append]
  rfl

/-- Replacements behind a text are made on what follows it. -/
theorem applyAll_append {rs : List Replacement} {lead rest : Text}
    (h : Ascending (lead ++ rest).length lead.length rs) :
    applyAll rs (lead ++ rest) = lead ++ splice lead.length rest rs := by
  induction rs generalizing lead rest with
  | nil => rfl
  | cons r rs ih =>
      rw [applyAll_cons h.start_lt]
      obtain ⟨hstart, hspan, hrest⟩ := h
      have hle := hrest.le
      rw [List.length_append] at hle
      -- the part of the line up to the end of the first span is out of reach of the other spans
      have hsplit : lead ++ rest
          = (lead ++ rest.take (r.span.stop - lead.length)) ++ rest.drop (r.span.stop - lead.length) := by
        rw [List.append_assoc, List.take_append_drop]
      have hlength : (lead ++ rest.take (r.span.stop - lead.length)).length = r.span.stop := by
        rw [List.length_append, List.length_take]
        omega
      have hothers := @ih (lead ++ rest.take (r.span.stop - lead.length))
        (rest.drop (r.span.stop - lead.length)) (by rwa [← hsplit, hlength])
      rw [← hsplit, hlength] at hothers
      rw [hothers, apply, List.drop_left' hlength, List.append_assoc lead, List.take_append,
        List.take_of_length_le hstart, List.take_append_of_le_length (by rw [List.length_take]; omega),
        List.take_take, Nat.min_eq_left (by omega), splice]
      simp only [List.append_assoc]

/-- The copy from left to right is what the replacements from right to left give. -/
theorem applyAll_eq_splice {rs : List Replacement} {line : Text} (h : Ascending line.length 0 rs) :
    applyAll rs line = splice 0 line rs :=
  @applyAll_append rs [] line h

theorem applyAll_nil (line : Text) : applyAll [] line = line := rfl

theorem applyAll_singleton {before old new after : Text} {start stop : Nat}
    (hstart : start = before.length) (hstop : stop = before.length + old.length) :
    applyAll [⟨⟨start, stop⟩, new⟩] (before ++ (old ++ after)) = before ++ (new ++ after) := by
  subst hstart hstop
  change (before ++ (old ++ after)).take before.length ++ new
    ++ (before ++ (old ++ after)).drop (before.length + old.length) = _
  rw [List.take_left, ← List.append_assoc before old, ← List.length_append, List.drop_left,
    List.append_assoc]

theorem applyAll_insertion {before new after : Text} {col : Nat} (hcol : col = before.length) :
    applyAll [insertion col new] (before ++ after) = before ++ (new ++ after) :=
  @applyAll_singleton before [] new after col col hcol hcol

theorem applyAll_insertion_eq (col : Nat) (new line : Text) :
    applyAll [insertion col new] line = line.take col ++ (new ++ line.drop col) :=
  List.append_assoc ..

theorem splice_cons {col : Nat} {before old new rest : Text} {start stop : Nat}
    {rs : List Replacement} (hstart : start = col + before.length)
    (hstop : stop = start + old.length) :
    splice col (before ++ (old ++ rest)) (⟨⟨start, stop⟩, new⟩ :: rs)
      = before ++ (new ++ splice stop rest rs) := by
  subst hstart hstop
  have htake : col + before.length - col = before.length := by omega
  have hdrop : col + before.length + old.length - col = (before ++ old).length := by
    rw [List.length_append]
    omega
  rw [splice, htake, hdrop, List.take_left, ← List.append_assoc before old, List.drop_left]

/-! ### Line breaks -/

def Fills (r : Replacement) : Prop :=
  r.text ≠ [] ∧ r.text.IsUnbroken

/-- One replacement keeps a line one line, if it brings no break and uncovers no carriage return. -/
theorem fits_apply {r : Replacement} {line : Text} (hunbroken : r.text.IsUnbroken)
    (hlast : r.text = [] → (line.take r.span.start).getLast? ≠ some '\r') :
    Document.Fits line (r.apply line) := by
  refine ⟨fun hfeed hnew => ?_, fun hreturn hnew => ?_⟩
  · simp only [apply, List.mem_append] at hnew
    rcases hnew with (hnew | hnew) | hnew
    · exact hfeed (List.mem_of_mem_take hnew)
    · exact (hunbroken _ hnew).1 rfl
    · exact hfeed (List.mem_of_mem_drop hnew)
  · rw [apply, List.getLast?_append, List.getLast?_append, List.getLast?_drop] at hnew
    by_cases hrest : line.length ≤ r.span.stop
    · rw [if_pos hrest, Option.none_or] at hnew
      by_cases htext : r.text = []
      · exact hlast htext (by simpa [htext] using hnew)
      · rw [List.getLast?_eq_some_getLast htext, Option.some_or] at hnew
        exact (hunbroken _ (List.getLast_mem htext)).2 (Option.some.inj hnew)
    · rw [if_neg hrest] at hnew
      have hne : line ≠ [] := by
        rintro rfl
        simp at hrest
      rw [List.getLast?_eq_some_getLast hne, Option.some_or] at hnew
      exact hreturn (by rw [List.getLast?_eq_some_getLast hne, hnew])

/-- Replacements that all write something cannot uncover a carriage return. -/
theorem fits_applyAll {rs : List Replacement} (h : ∀ r ∈ rs, r.Fills) (line : Text) :
    Document.Fits line (applyAll rs line) := by
  have hfold : ∀ rs : List Replacement, (∀ r ∈ rs, r.Fills) → ∀ line,
      Document.Fits line (rs.foldl (fun line r => r.apply line) line) := by
    intro rs
    induction rs with
    | nil => exact fun _ line => Document.Fits.refl line
    | cons r rs ih =>
        intro h line
        obtain ⟨hne, hunbroken⟩ := h r List.mem_cons_self
        exact (fits_apply hunbroken fun hnil => absurd hnil hne).trans
          (ih (fun s hs => h s (List.mem_cons_of_mem _ hs)) _)
  exact hfold _ (fun r hr => h r (mem_rightToLeft.mp hr)) line

theorem fits_applyAll_deletion {start stop : Nat} {line : Text}
    (h : (line.take start).getLast? ≠ some '\r') :
    Document.Fits line (applyAll [⟨⟨start, stop⟩, []⟩] line) :=
  fits_apply Text.isUnbroken_nil fun _ => h

end Replacement

end WardleyMap
