import WardleyMap.Proofs.Edit.InPlace

/-!
# Replacing all spans at once

Replacements are made one after another, and each of them moves what stands behind its span. What is meant by
them does not know an order: every span of the line as it was gives way to its own text, and what stands between
the spans is kept. `Replacement.simultaneous` says so with one walk along the line, which sorts nothing and
never looks at a changed text. Replacing from right to left comes to the same, in whatever order the replacements
were handed in, if the spans do not overlap and no two of them start at one column
(`Replacement.applyAll_eq_simultaneous`). The second condition is for empty spans: of two texts inserted at one
column, the order in which they were handed in decides which one stands first.
-/

namespace WardleyMap

namespace Span

/-- The spans do not overlap: one of them stops where the other one starts, or in front of it. Either may be
empty, but a place inside a span is not apart from it. -/
def Apart (s t : Span) : Prop :=
  s.stop ≤ t.start ∨ t.stop ≤ s.start

theorem Apart.symm {s t : Span} (h : s.Apart t) : t.Apart s :=
  Or.symm h

theorem Apart.precedes {s t : Span} (h : s.Apart t) (ht : t.start ≤ t.stop) (hlt : s.start < t.start) :
    s.Precedes t := by
  refine ⟨hlt, h.resolve_right fun hstop => ?_⟩
  exact absurd (ht.trans hstop) (Nat.not_le_of_lt hlt)

end Span

namespace Replacement

def writtenAt (rs : List Replacement) (col : Nat) : Text :=
  (rs.filter fun r => r.span.start = col).flatMap fun r => r.text

def covers (rs : List Replacement) (col : Nat) : Bool :=
  rs.any fun r => r.span.start ≤ col && col < r.span.stop

/-- The text `rest`, which starts at column `col`, with all of the spans replaced at once. At every column stands
what is written for the span that starts there, and then the character of the text, if no span takes it up. -/
def simultaneousFrom (rs : List Replacement) (col : Nat) : (rest : Text) → Text
  | [] => writtenAt rs col
  | c :: rest =>
    writtenAt rs col ++ ((if covers rs col then [] else [c]) ++ simultaneousFrom rs (col + 1) rest)

def simultaneous (rs : List Replacement) (line : Text) : Text :=
  simultaneousFrom rs 0 line

variable {r : Replacement} {rs order : List Replacement} {line rest : Text} {col : Nat}

/-! ### The walk along the line -/

theorem writtenAt_cons (r : Replacement) (rs : List Replacement) (col : Nat) :
    writtenAt (r :: rs) col = (if r.span.start = col then r.text else []) ++ writtenAt rs col := by
  unfold writtenAt
  by_cases hstart : r.span.start = col
  · rw [List.filter_cons_of_pos (by simpa using hstart), List.flatMap_cons, if_pos hstart]
  · rw [List.filter_cons_of_neg (by simpa using hstart), if_neg hstart, List.nil_append]

theorem covers_cons (r : Replacement) (rs : List Replacement) (col : Nat) :
    covers (r :: rs) col = ((r.span.start ≤ col && col < r.span.stop) || covers rs col) := rfl

theorem covers_of_within (rs : List Replacement) (hstart : r.span.start ≤ col) (hstop : col < r.span.stop) :
    covers (r :: rs) col = true := by
  rw [covers_cons, decide_eq_true hstart, decide_eq_true hstop]
  rfl

theorem writtenAt_eq_nil (h : ∀ s ∈ rs, s.span.start ≠ col) : writtenAt rs col = [] := by
  rw [writtenAt, List.filter_eq_nil_iff.mpr fun s hs => by simpa using h s hs]
  rfl

theorem covers_eq_false (h : ∀ s ∈ rs, col < s.span.start) : covers rs col = false := by
  refine List.any_eq_false.mpr fun s hs => ?_
  have := h s hs
  simp only [Bool.and_eq_true, decide_eq_true_eq]
  omega

/-- Only what is written from column `col` on matters to the text from there on. -/
theorem simultaneousFrom_congr {rs' : List Replacement}
    (h : ∀ n, col ≤ n → writtenAt rs n = writtenAt rs' n ∧ covers rs n = covers rs' n) (rest : Text) :
    simultaneousFrom rs col rest = simultaneousFrom rs' col rest := by
  induction rest generalizing col with
  | nil => exact (h col (Nat.le_refl col)).1
  | cons c rest ih =>
      obtain ⟨hwritten, hcovers⟩ := h col (Nat.le_refl col)
      rw [simultaneousFrom, simultaneousFrom, hwritten, hcovers, ih fun n hn => h n (Nat.le_of_succ_le hn)]

/-- What stands in front of all spans is kept. -/
theorem simultaneousFrom_append {front : Text} (h : ∀ s ∈ rs, col + front.length ≤ s.span.start) :
    simultaneousFrom rs col (front ++ rest) = front ++ simultaneousFrom rs (col + front.length) rest := by
  induction front generalizing col with
  | nil => rfl
  | cons c front ih =>
      rw [List.length_cons] at h ⊢
      have hlt : ∀ s ∈ rs, col < s.span.start := fun s hs => by
        have := h s hs
        omega
      rw [List.cons_append, simultaneousFrom, writtenAt_eq_nil fun s hs => (hlt s hs).ne', covers_eq_false hlt,
        ih fun s hs => by
          have := h s hs
          omega]
      rw [if_neg Bool.false_ne_true, List.nil_append, Nat.add_right_comm, ← Nat.add_assoc]
      rfl

/-- Behind a span it makes no difference that the span was replaced. -/
theorem simultaneousFrom_behind (hstart : r.span.start < col) (hstop : r.span.stop ≤ col) (rest : Text) :
    simultaneousFrom (r :: rs) col rest = simultaneousFrom rs col rest := by
  refine simultaneousFrom_congr (fun n hn => ?_) rest
  rw [writtenAt_cons, if_neg (by omega), List.nil_append, covers_cons]
  refine ⟨rfl, ?_⟩
  have hoff : (decide (r.span.start ≤ n) && decide (n < r.span.stop)) = false := by
    simp only [Bool.and_eq_false_iff, decide_eq_false_iff_not]
    omega
  rw [hoff, Bool.false_or]

/-- Behind its start, the text of a span is passed over. -/
theorem simultaneousFrom_inside {old : Text} (hstart : r.span.start < col)
    (hstop : col + old.length = r.span.stop) (h : ∀ s ∈ rs, r.span.stop ≤ s.span.start) :
    simultaneousFrom (r :: rs) col (old ++ rest) = simultaneousFrom rs r.span.stop rest := by
  induction old generalizing col with
  | nil =>
      obtain rfl : col = r.span.stop := hstop
      exact simultaneousFrom_behind hstart (Nat.le_refl _) rest
  | cons c old ih =>
      rw [List.length_cons] at hstop
      have hwritten : writtenAt rs col = [] := writtenAt_eq_nil fun s hs => by
        have := h s hs
        omega
      have hcovers : covers (r :: rs) col = true := covers_of_within rs hstart.le (by omega)
      rw [List.cons_append, simultaneousFrom, writtenAt_cons, if_neg (by omega), hwritten, hcovers, if_pos rfl,
        ih (by omega) (by omega)]
      rfl

/-- From the start of a span on stands its new text, and then what follows the span. -/
theorem simultaneousFrom_span {old : Text} (hstop : r.span.start + old.length = r.span.stop)
    (h : ∀ s ∈ rs, r.span.Precedes s.span) : simultaneousFrom (r :: rs) r.span.start (old ++ rest)
      = r.text ++ simultaneousFrom rs r.span.stop rest := by
  cases old with
  | nil =>
      -- another span may start where the empty one stands
      have hempty : r.span.stop = r.span.start := hstop.symm
      rw [hempty, List.nil_append]
      cases rest with
      | nil => rw [simultaneousFrom, writtenAt_cons, if_pos rfl, simultaneousFrom]
      | cons c rest =>
          have hcovers : covers (r :: rs) r.span.start = covers rs r.span.start := by
            rw [covers_cons, hempty]
            simp
          rw [simultaneousFrom, writtenAt_cons, if_pos rfl, hcovers,
            simultaneousFrom_behind (Nat.lt_succ_self _) (by omega), simultaneousFrom, List.append_assoc]
  | cons c old =>
      rw [List.length_cons] at hstop
      have hwritten : writtenAt rs r.span.start = [] := writtenAt_eq_nil fun s hs => (h s hs).1.ne'
      have hcovers : covers (r :: rs) r.span.start = true :=
        covers_of_within rs (Nat.le_refl _) (by omega)
      rw [List.cons_append, simultaneousFrom, writtenAt_cons, if_pos rfl, hwritten, hcovers, if_pos rfl,
        simultaneousFrom_inside (Nat.lt_succ_self _) (by omega) fun s hs => (h s hs).2, List.append_nil]
      rfl

/-! ### From right to left -/

theorem exists_split {span : Span} (hspan : span.start ≤ span.stop) (hlength : span.stop ≤ line.length) :
    ∃ before old after : Text, line = before ++ (old ++ after) ∧ span.start = before.length ∧
      span.stop = before.length + old.length := by
  refine ⟨line.take span.start, span.slice line, line.drop span.stop, ?_, ?_, ?_⟩
  · have htake : (line.take span.stop).take span.start = line.take span.start := by
      rw [List.take_take, Nat.min_eq_left hspan]
    rw [Span.slice, ← List.append_assoc, ← htake, List.take_append_drop, List.take_append_drop]
  · rw [List.length_take]
    omega
  · rw [Span.slice, List.length_drop, List.length_take, List.length_take]
    omega

/-- Replacements given from right to left are made as if all at once, as each leaves the columns of the next in
place. -/
theorem applyAll_eq_of_pairwise
    (hspans : ∀ r ∈ rs, r.span.start ≤ r.span.stop ∧ r.span.stop ≤ line.length)
    (h : rs.Pairwise fun r s => r.span.Precedes s.span) : applyAll rs line = simultaneous rs line := by
  induction rs with
  | nil =>
      have hkept := @simultaneousFrom_append [] [] 0 line (by simp)
      rw [List.append_nil] at hkept
      exact (hkept.trans (List.append_nil line)).symm
  | cons r rs ih =>
      obtain ⟨hfirst, hrest⟩ := List.pairwise_cons.mp h
      obtain ⟨⟨hspan, hlength⟩, hspans⟩ := List.forall_mem_cons.mp hspans
      obtain ⟨gap, old, rest, rfl, hstart, hstop⟩ := exists_split hspan hlength
      have hgap : ∀ s ∈ r :: rs, 0 + gap.length ≤ s.span.start := List.forall_mem_cons.mpr
        ⟨by omega, fun s hs => by have := (hfirst s hs).1; omega⟩
      have hothers : ∀ s ∈ rs, 0 + (gap ++ old).length ≤ s.span.start := fun s hs => by
        have := (hfirst s hs).2
        rw [List.length_append]
        omega
      have hcol : 0 + gap.length = r.span.start := by omega
      -- the other spans keep the line up to the end of this one
      have hkept : simultaneous rs (gap ++ (old ++ rest))
          = gap ++ (old ++ simultaneousFrom rs r.span.stop rest) := by
        rw [simultaneous, ← List.append_assoc, simultaneousFrom_append hothers, List.length_append, Nat.zero_add,
          ← hstop, List.append_assoc]
      rw [applyAll_cons fun s hs => (hfirst s hs).1, ih hspans hrest, hkept, simultaneous,
        simultaneousFrom_append hgap, hcol, simultaneousFrom_span (by omega) hfirst]
      exact applyAll_singleton hstart hstop

/-! ### The order in which replacements are handed in -/

theorem perm_place (r : Replacement) (rs : List Replacement) : (place r rs).Perm (r :: rs) := by
  induction rs with
  | nil => exact List.Perm.refl _
  | cons s rs ih =>
      rw [place]
      split
      · exact List.Perm.refl _
      · exact (ih.cons s).trans (List.Perm.swap r s rs)

theorem perm_rightToLeft (rs : List Replacement) : (rightToLeft rs).Perm rs := by
  induction rs with
  | nil => exact List.Perm.refl _
  | cons r rs ih => exact (perm_place r _).trans (ih.cons r)

/-- Placing a replacement keeps the list in order, if no two start at one column. -/
theorem pairwise_place (h : rs.Pairwise fun s t => t.span.start < s.span.start)
    (hne : ∀ s ∈ rs, r.span.start ≠ s.span.start) :
    (place r rs).Pairwise fun s t => t.span.start < s.span.start := by
  induction rs with
  | nil => exact List.pairwise_singleton _ _
  | cons s rs ih =>
      obtain ⟨hs, hrs⟩ := List.pairwise_cons.mp h
      obtain ⟨hne, hothers⟩ := List.forall_mem_cons.mp hne
      rw [place]
      split
      · next hle =>
          have hlt : s.span.start < r.span.start := by omega
          refine List.pairwise_cons.mpr ⟨List.forall_mem_cons.mpr ⟨hlt, fun t ht => ?_⟩, h⟩
          exact (hs t ht).trans hlt
      · next hgt =>
          refine List.pairwise_cons.mpr ⟨fun t ht => ?_, ih hrs hothers⟩
          rcases mem_place.mp ht with rfl | ht
          · exact Nat.lt_of_not_le hgt
          · exact hs t ht

theorem pairwise_rightToLeft (h : rs.Pairwise fun r s => r.span.start ≠ s.span.start) :
    (rightToLeft rs).Pairwise fun s t => t.span.start < s.span.start := by
  induction rs with
  | nil => exact List.Pairwise.nil
  | cons r rs ih =>
      obtain ⟨hr, hrs⟩ := List.pairwise_cons.mp h
      exact pairwise_place (ih hrs) fun s hs => hr s (mem_rightToLeft.mp hs)

/-- Replacements that start at different columns are put in the same order, however they were handed in. -/
theorem rightToLeft_eq_of_perm (horder : order.Perm rs)
    (h : rs.Pairwise fun r s => r.span.start ≠ s.span.start) : rightToLeft order = rightToLeft rs := by
  have hdistinct : order.Pairwise fun r s => r.span.start ≠ s.span.start :=
    (horder.pairwise_iff Ne.symm).mpr h
  have hperm := (perm_rightToLeft order).trans (horder.trans (perm_rightToLeft rs).symm)
  refine hperm.eq_of_pairwise (fun a b _ _ hab hba => ?_) (pairwise_rightToLeft hdistinct)
    (pairwise_rightToLeft h)
  exact absurd hab (Nat.lt_asymm hba)

/-- Which of the replacements is named first does not matter to the walk. -/
theorem simultaneous_perm (horder : order.Perm rs)
    (h : rs.Pairwise fun r s => r.span.start ≠ s.span.start) (line : Text) :
    simultaneous order line = simultaneous rs line := by
  refine simultaneousFrom_congr (fun col _ => ⟨?_, horder.any_eq⟩) line
  have hdistinct : order.Pairwise fun r s => r.span.start ≠ s.span.start :=
    (horder.pairwise_iff Ne.symm).mpr h
  have hstart {rs : List Replacement} {r : Replacement} (hr : r ∈ rs.filter fun r => r.span.start = col) :
      r.span.start = col := by
    simpa using (List.mem_filter.mp hr).2
  -- the spans that start at the column are one at most, so their order is no matter
  have hfilter : order.filter (fun r => r.span.start = col) = rs.filter fun r => r.span.start = col :=
    (horder.filter _).eq_of_pairwise
      (fun r s hr hs hne _ => absurd ((hstart hr).trans (hstart hs).symm) hne)
      (hdistinct.filter _) (h.filter _)
  rw [writtenAt, writtenAt, hfilter]

/-- The replacements sorted from left to right: their spans follow one another. -/
theorem pairwise_leftToRight (hspans : ∀ r ∈ rs, r.span.start ≤ r.span.stop ∧ r.span.stop ≤ line.length)
    (hapart : rs.Pairwise fun r s => r.span.Apart s.span)
    (hstarts : rs.Pairwise fun r s => r.span.start ≠ s.span.start) :
    (rightToLeft rs).reverse.Pairwise fun r s => r.span.Precedes s.span := by
  have hperm := perm_rightToLeft rs
  have happart : (rightToLeft rs).Pairwise fun r s => r.span.Apart s.span :=
    (hperm.pairwise_iff Span.Apart.symm).mpr hapart
  rw [List.pairwise_reverse]
  refine ((pairwise_rightToLeft hstarts).and happart).imp_of_mem fun {s r} hs _ ⟨hlt, hrs⟩ => ?_
  exact Span.Apart.precedes hrs.symm (hspans s (hperm.mem_iff.mp hs)).1 hlt

/-- Replacing the spans one after another gives the line with all of them replaced at once, whatever the order in
which the replacements were handed in, and it does not fail on bytes. -/
theorem applyAll_eq_simultaneous (hspans : ∀ r ∈ rs, r.span.start ≤ r.span.stop ∧ r.span.stop ≤ line.length)
    (hapart : rs.Pairwise fun r s => r.span.Apart s.span)
    (hstarts : rs.Pairwise fun r s => r.span.start ≠ s.span.start) :
    ∀ order, order.Perm rs → applyAll order line = simultaneous rs line ∧
      applyBytes? order line = some (simultaneous rs line) := by
  intro order horder
  let sorted := (rightToLeft rs).reverse
  have hperm : sorted.Perm rs := (List.reverse_perm _).trans (perm_rightToLeft rs)
  have hpairwise : sorted.Pairwise fun r s => r.span.Precedes s.span :=
    pairwise_leftToRight hspans hapart hstarts
  have hsorted : ∀ r ∈ sorted, r.span.start ≤ r.span.stop ∧ r.span.stop ≤ line.length :=
    fun r hr => hspans r (hperm.mem_iff.mp hr)
  have hsame : rightToLeft order = rightToLeft sorted :=
    (rightToLeft_eq_of_perm horder hstarts).trans (rightToLeft_eq_of_perm hperm hstarts).symm
  have happly : applyAll sorted line = simultaneous rs line :=
    (applyAll_eq_of_pairwise hsorted hpairwise).trans (simultaneous_perm hperm hstarts line)
  refine ⟨?_, ?_⟩
  · rw [applyAll, hsame]
    exact happly
  · rw [applyBytes?, hsame]
    exact (inPlace_of_pairwise hsorted hpairwise).trans (congrArg some happly)

/-- A name is replaced, an override is put in right behind it, and the number behind the gap is replaced. One letter
of the name takes two bytes. -/
theorem applyAll_eq_simultaneous_evolve :
    let line : Text := "evolve Th\u00e9 0.8".toList
    let rs : List Replacement :=
      [.insertion 10 "->B".toList, ⟨⟨11, 14⟩, "0.25".toList⟩, ⟨⟨7, 10⟩, "Tea".toList⟩]
    (∀ r ∈ rs, r.span.start ≤ r.span.stop ∧ r.span.stop ≤ line.length) ∧
      (rs.Pairwise fun r s => r.span.Apart s.span) ∧
      (rs.Pairwise fun r s => r.span.start ≠ s.span.start) ∧
      ∀ order, order.Perm rs → applyAll order line = "evolve Tea->B 0.25".toList ∧
        applyBytes? order line = some "evolve Tea->B 0.25".toList := by
  intro line rs
  have hspans : ∀ r ∈ rs, r.span.start ≤ r.span.stop ∧ r.span.stop ≤ line.length := by decide
  have hapart : rs.Pairwise fun r s => r.span.Apart s.span := by
    unfold Span.Apart
    decide
  have hstarts : rs.Pairwise fun r s => r.span.start ≠ s.span.start := by decide
  have hline : simultaneous rs line = "evolve Tea->B 0.25".toList := by decide
  refine ⟨hspans, hapart, hstarts, fun order horder => ?_⟩
  rw [← hline]
  exact applyAll_eq_simultaneous hspans hapart hstarts order horder

end Replacement

end WardleyMap
