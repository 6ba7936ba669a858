import Mathlib.Data.List.Forall2
import WardleyMap.Edit.Plan
import WardleyMap.Proofs.Decimal.Printed
import WardleyMap.Proofs.Edit.Splice
import WardleyMap.Proofs.Statement.Clause

/-!
# Writing numbers

Writing numbers into a clause turns its list of fields into another one of the same length: a field keeps the
spaces around its number, and the number becomes a literal that prints like the value it was given. A
new clause is a list of such fields from the start. Either way the clause that is read afterwards
shows the values that were asked for, which is why writing them once more has nothing to do.
-/

namespace WardleyMap

namespace Decimal

theorem isLiteral_fixed_of_isFinite {x : Float} (h : x.isFinite = true) (precision : Nat) :
    isLiteral (fixed x precision) = true := by
  obtain ⟨negative, units, hx⟩ := exists_finite h
  exact isLiteral_fixed hx precision

/-- A number that was written agrees with the value that it was written for. -/
theorem agreesAt_value_fixed {x : Float} (h : x.isFinite = true) (precision : Nat) :
    agreesAt precision (value (fixed x precision)) x = true := by
  obtain ⟨negative, units, hx⟩ := exists_finite h
  rw [agreesAt, fixed_value_fixed hx, beq_self_eq_true]

end Decimal

namespace Replacement

/-- Replacements behind a text do not touch it. -/
theorem splice_append {col : Nat} {before rest : Text} {rs : List Replacement}
    (h : ∀ r ∈ rs, col + before.length ≤ r.span.start ∧ r.span.start ≤ r.span.stop) :
    splice col (before ++ rest) rs = before ++ splice (col + before.length) rest rs := by
  cases rs with
  | nil => rfl
  | cons r rs =>
      obtain ⟨hstart, hstop⟩ := h r List.mem_cons_self
      rw [splice, splice, List.take_append, List.take_of_length_le (by omega), List.drop_append,
        List.drop_eq_nil_of_le (by omega), List.nil_append, List.append_assoc]
      congr 3
      · omega
      · congr 2
        omega

end Replacement

namespace Field

def Agree (precision : Nat) (numbers : List Number) (values : List Float) : Prop :=
  List.Forall₂ (fun number x => Decimal.agreesAt precision number.value x = true) numbers values

def write (precision : Nat) (f : Field) (x : Float) : Field :=
  if h : Decimal.isLiteral (Decimal.fixed x precision) = true then
    ⟨f.before, Decimal.fixed x precision, f.after, f.isSpace_before, h, f.isSpace_after⟩
  else f

def replacements (precision : Nat) (numbers : List Number) (values : List Float) :
    List Replacement :=
  (numbers.zip values).map fun (number, x) => ⟨number.span, Decimal.fixed x precision⟩

variable {precision : Nat}

theorem text_write {f : Field} {x : Float} (hx : x.isFinite = true) :
    (f.write precision x).text = f.before ++ (Decimal.fixed x precision ++ f.after) := by
  rw [write, dif_pos (Decimal.isLiteral_fixed_of_isFinite hx precision)]
  rfl

theorem agreesAt_write {f : Field} {x : Float} (hx : x.isFinite = true) :
    Decimal.agreesAt precision (Decimal.value (f.write precision x).literal) x = true := by
  rw [write, dif_pos (Decimal.isLiteral_fixed_of_isFinite hx precision)]
  exact Decimal.agreesAt_value_fixed hx precision

theorem length_literal_pos (f : Field) : 0 < f.literal.length :=
  List.length_pos_iff.mpr (Decimal.literal_ne_nil f.isLiteral)

theorem length_le_text (f : Field) : f.before.length + f.literal.length ≤ f.text.length := by
  simp only [text, List.length_append]
  omega

def joinTail : List Field → Text
  | [] => []
  | f :: fs => ',' :: join (f :: fs)

theorem join_cons (f : Field) (fs : List Field) : join (f :: fs) = f.text ++ joinTail fs := by
  cases fs with
  | nil => exact (List.append_nil _).symm
  | cons g fs => rfl

/-! ### Replacing the numbers of a clause -/

theorem le_start_of_mem_replacements {fs : List Field} {values : List Float} {col : Nat} :
    ∀ r ∈ replacements precision (numbers col fs) values,
      col ≤ r.span.start ∧ r.span.start ≤ r.span.stop := by
  induction fs generalizing col values with
  | nil => simp [replacements, numbers]
  | cons f fs ih =>
      cases values with
      | nil => simp [replacements]
      | cons x values =>
          intro r hr
          rw [replacements, numbers, List.zip_cons_cons, List.map_cons, List.mem_cons] at hr
          rcases hr with rfl | hr
          · simp only [number]
            omega
          · have := ih r hr
            omega

/-- The replacements of a row of fields follow one another, so they can be made from left to right. -/
theorem ascending_replacements {fs : List Field} {values : List Float} {col stop : Nat}
    (h : col + (join fs).length ≤ stop) :
    Replacement.Ascending stop col (replacements precision (numbers col fs) values) := by
  induction fs generalizing col values with
  | nil => simpa [replacements, numbers, join, Replacement.Ascending] using h
  | cons f fs ih =>
      rw [join_cons, List.length_append] at h
      cases values with
      | nil =>
          change col ≤ stop
          omega
      | cons x values =>
          have hpos := f.length_literal_pos
          have htext := f.length_le_text
          refine ⟨Nat.le_add_right _ _, Nat.lt_add_of_pos_right hpos, ?_⟩
          change Replacement.Ascending stop (col + f.before.length + f.literal.length)
            (replacements precision (numbers (col + f.text.length + 1) fs) values)
          cases fs with
          | nil =>
              change col + f.before.length + f.literal.length ≤ stop
              omega
          | cons g fs =>
              simp only [joinTail, List.length_cons] at h
              exact (ih (by omega)).mono (by omega)

/-- Writing a row of numbers is writing each field on its own, with the commas kept. -/
theorem splice_replacements {fs : List Field} {values : List Float} (hlength : fs.length = values.length)
    (hfinite : ∀ x ∈ values, x.isFinite = true) (col : Nat) (tail : Text) :
    Replacement.splice col (join fs ++ tail) (replacements precision (numbers col fs) values)
      = join (List.zipWith (write precision) fs values) ++ tail := by
  induction fs generalizing values col with
  | nil => rfl
  | cons f fs ih =>
      obtain ⟨x, values, rfl⟩ := List.exists_cons_of_length_eq_add_one hlength.symm
      have hx := hfinite x List.mem_cons_self
      have hvalues : ∀ y ∈ values, y.isFinite = true := fun y hy => hfinite y (List.mem_cons_of_mem _ hy)
      have hlength' : fs.length = values.length := by simpa using hlength
      -- what is between this number and the next one is copied
      have hcopy : Replacement.splice (col + f.before.length + f.literal.length)
          (f.after ++ (joinTail fs ++ tail))
          (replacements precision (numbers (col + f.text.length + 1) fs) values)
          = f.after ++ (joinTail (List.zipWith (write precision) fs values) ++ tail) := by
        have hcol : col + f.text.length = col + f.before.length + f.literal.length + f.after.length := by
          simp only [text, List.length_append]
          omega
        cases fs with
        | nil =>
            obtain rfl : values = [] := by simpa using hlength'.symm
            rfl
        | cons g fs =>
            obtain ⟨y, values, rfl⟩ := List.exists_cons_of_length_eq_add_one hlength'.symm
            have hrest := ih hlength' hvalues (col + f.text.length + 1)
            have hbehind : ∀ r ∈ replacements precision
                (numbers (col + f.text.length + 1) (g :: fs)) (y :: values),
                col + f.text.length + 1 ≤ r.span.start ∧ r.span.start ≤ r.span.stop :=
              le_start_of_mem_replacements
            have hcomma : f.after ++ (joinTail (g :: fs) ++ tail)
                = (f.after ++ [',']) ++ (join (g :: fs) ++ tail) := by
              simp [joinTail]
            have hnext : col + f.before.length + f.literal.length + (f.after ++ [',']).length
                = col + f.text.length + 1 := by
              rw [List.length_append, List.length_singleton]
              omega
            rw [hcomma, Replacement.splice_append fun r hr => hnext ▸ hbehind r hr, hnext, hrest]
            simp [joinTail]
      have hsplit : join (f :: fs) ++ tail = f.before ++ (f.literal ++ (f.after ++ (joinTail fs ++ tail))) := by
        rw [join_cons, text]
        simp only [List.append_assoc]
      rw [hsplit, List.zipWith_cons_cons, join_cons, text_write hx]
      change Replacement.splice col _ (⟨⟨col + f.before.length,
        col + f.before.length + f.literal.length⟩, Decimal.fixed x precision⟩ ::
        replacements precision (numbers (col + f.text.length + 1) fs) values) = _
      rw [Replacement.splice_cons rfl rfl, hcopy]
      simp only [List.append_assoc]

theorem agree_zipWith {fs : List Field} {values : List Float} (hlength : fs.length = values.length)
    (hfinite : ∀ x ∈ values, x.isFinite = true) (col : Nat) :
    Agree precision (numbers col (List.zipWith (write precision) fs values)) values := by
  induction fs generalizing values col with
  | nil =>
      obtain rfl : values = [] := by simpa using hlength.symm
      exact .nil
  | cons f fs ih =>
      obtain ⟨x, values, rfl⟩ := List.exists_cons_of_length_eq_add_one hlength.symm
      refine .cons (agreesAt_write (hfinite x List.mem_cons_self)) ?_
      exact ih (by simpa using hlength) (fun y hy => hfinite y (List.mem_cons_of_mem _ hy)) _

/-- Numbers agree with their values if none of them would be printed otherwise, which is what an edit tests. -/
theorem agree_iff {numbers : List Number} {values : List Float}
    (hlength : numbers.length = values.length) : Agree precision numbers values ↔
      ((numbers.zip values).all fun (number, x) => Decimal.agreesAt precision number.value x)
        = true := by
  induction numbers generalizing values with
  | nil =>
      obtain rfl : values = [] := by simpa using hlength.symm
      simp [Agree]
  | cons number numbers ih =>
      obtain ⟨x, values, rfl⟩ := List.exists_cons_of_length_eq_add_one hlength.symm
      have hlength' : numbers.length = values.length := by simpa using hlength
      rw [List.zip_cons_cons, List.all_cons, Bool.and_eq_true, ← ih hlength', Agree,
        List.forall₂_cons]
      rfl

theorem writeNumbers_of_agree {numbers : List Number} {values : List Float}
    (h : Agree precision numbers values) : writeNumbers precision numbers values = [] :=
  if_pos ((agree_iff h.length_eq).mp h)

/-- What is kept of a line when numbers of it are replaced: everything, or all but their spans. -/
def KeptBut (precision : Nat) (numbers : List Number) (values : List Float) (line line' : Text) :
    Prop :=
  line' = line ∨ line' = Replacement.splice 0 line (replacements precision numbers values)

/-- The fields after the values have been written into them. They stay as they are if all of them show their
values already. -/
def rewrite (precision : Nat) (fs : List Field) (values : List Float) : List Field :=
  if (fs.zip values).all fun (f, x) => Decimal.agreesAt precision (Decimal.value f.literal) x then fs
  else List.zipWith (write precision) fs values

theorem all_zip_numbers (col : Nat) (fs : List Field) (values : List Float) :
    ((numbers col fs).zip values).all (fun (number, x) => Decimal.agreesAt precision number.value x)
      = (fs.zip values).all fun (f, x) => Decimal.agreesAt precision (Decimal.value f.literal) x := by
  induction fs generalizing col values with
  | nil => rfl
  | cons f fs ih =>
      cases values with
      | nil => rfl
      | cons x values => exact congrArg (Decimal.agreesAt precision (Decimal.value f.literal) x && ·) (ih _ values)

variable {fs : List Field} {values : List Float} {lead : Text} {col : Nat}

theorem rewrite_of_agree (hlength : fs.length = values.length)
    (h : Agree precision (numbers col fs) values) : rewrite precision fs values = fs := by
  refine if_pos ?_
  rw [← all_zip_numbers col]
  exact (agree_iff (by rwa [length_numbers])).mp h

theorem rewrite_of_not_agree (hlength : fs.length = values.length)
    (h : ¬Agree precision (numbers col fs) values) :
    rewrite precision fs values = List.zipWith (write precision) fs values := by
  refine if_neg ?_
  rw [← all_zip_numbers col]
  exact mt (agree_iff (by rwa [length_numbers])).mpr h

theorem length_rewrite (hlength : fs.length = values.length) :
    (rewrite precision fs values).length = fs.length := by
  unfold rewrite
  split
  · rfl
  · rw [List.length_zipWith, ← hlength, Nat.min_self]

/-- Writing numbers into a clause gives a clause of the same form. -/
theorem applyAll_writeNumbers (hlength : fs.length = values.length)
    (hfinite : ∀ x ∈ values, x.isFinite = true) (hcol : col = lead.length) (tail : Text) :
    Replacement.applyAll (writeNumbers precision (numbers col fs) values) (lead ++ (join fs ++ tail))
        = lead ++ (join (rewrite precision fs values) ++ tail) ∧
      KeptBut precision (numbers col fs) values (lead ++ (join fs ++ tail))
        (lead ++ (join (rewrite precision fs values) ++ tail)) := by
  subst hcol
  have hnumbers : (numbers lead.length fs).length = values.length := by
    rw [length_numbers, hlength]
  by_cases hagree : Agree precision (numbers lead.length fs) values
  · rw [rewrite_of_agree hlength hagree, writeNumbers_of_agree hagree]
    exact ⟨rfl, Or.inl rfl⟩
  · have hall : ¬(((numbers lead.length fs).zip values).all fun (number, x) =>
        Decimal.agreesAt precision number.value x) = true := mt (agree_iff hnumbers).mpr hagree
    have hwrite : writeNumbers precision (numbers lead.length fs) values
        = replacements precision (numbers lead.length fs) values := if_neg hall
    have hascending : Replacement.Ascending (lead ++ (join fs ++ tail)).length lead.length
        (replacements precision (numbers lead.length fs) values) := by
      refine ascending_replacements ?_
      simp only [List.length_append]
      omega
    have happly : Replacement.applyAll (replacements precision (numbers lead.length fs) values)
        (lead ++ (join fs ++ tail))
          = lead ++ (join (List.zipWith (write precision) fs values) ++ tail) := by
      rw [Replacement.applyAll_append hascending, splice_replacements hlength hfinite]
    rw [rewrite_of_not_agree hlength hagree, hwrite]
    refine ⟨happly, Or.inr ?_⟩
    rw [← happly, Replacement.applyAll_eq_splice (hascending.mono (Nat.zero_le _))]

/-- The clause that is written shows the values. -/
theorem agree_rewrite (hlength : fs.length = values.length)
    (hfinite : ∀ x ∈ values, x.isFinite = true) (col : Nat) :
    Agree precision (numbers col (rewrite precision fs values)) values := by
  by_cases hagree : Agree precision (numbers col fs) values
  · rwa [rewrite_of_agree hlength hagree]
  · rw [rewrite_of_not_agree hlength hagree]
    exact agree_zipWith hlength hfinite col

theorem exists_writeNumbers {fs : List Field} {values : List Float}
    (hlength : fs.length = values.length) (hfinite : ∀ x ∈ values, x.isFinite = true)
    {lead : Text} {col : Nat} (hcol : col = lead.length) (tail : Text) : ∃ fs' : List Field,
      fs'.length = fs.length ∧ (∀ col, Agree precision (numbers col fs') values) ∧
      Replacement.applyAll (writeNumbers precision (numbers col fs) values)
        (lead ++ (join fs ++ tail)) = lead ++ (join fs' ++ tail) ∧
      KeptBut precision (numbers col fs) values (lead ++ (join fs ++ tail))
        (lead ++ (join fs' ++ tail)) :=
  ⟨_, length_rewrite hlength, agree_rewrite hlength hfinite,
    applyAll_writeNumbers hlength hfinite hcol tail⟩

/-- A new bracket is a list of fields that show the values. -/
theorem exists_bracketText {values : List Float} (hne : values ≠ [])
    (hfinite : ∀ x ∈ values, x.isFinite = true) : ∃ fs : List Field, fs.length = values.length ∧
      bracketText precision values = bracketed fs ∧ ∀ col, Agree precision (numbers col fs) values := by
  have hjoin : ∀ before : Text, (∀ c ∈ before, isSpace c = true) → ∃ fs : List Field,
      fs.length = values.length ∧
      join fs = before ++ List.intercalate [',', ' '] (values.map (Decimal.fixed · precision)) ∧
      ∀ col, Agree precision (numbers col fs) values := by
    induction values with
    | nil => exact absurd rfl hne
    | cons x values ih =>
        intro before hbefore
        have hx := hfinite x List.mem_cons_self
        have hliteral := Decimal.isLiteral_fixed_of_isFinite hx precision
        have hagree := Decimal.agreesAt_value_fixed hx precision
        cases values with
        | nil =>
            refine ⟨[⟨before, Decimal.fixed x precision, [], hbefore, hliteral, by simp⟩], rfl, ?_,
              fun col => .cons hagree .nil⟩
            simp [join, text]
        | cons y values =>
            obtain ⟨fs, hlength, hfs, hagrees⟩ := ih (by simp)
              (fun z hz => hfinite z (List.mem_cons_of_mem _ hz)) [' '] (by simp; decide)
            refine ⟨⟨before, Decimal.fixed x precision, [], hbefore, hliteral, by simp⟩ :: fs,
              by simpa using hlength, ?_, fun col => .cons hagree (hagrees _)⟩
            obtain ⟨g, fs, rfl⟩ := List.exists_cons_of_length_eq_add_one hlength
            rw [join, hfs, text]
            simp only [List.map_cons, List.intercalate_cons_cons, List.append_nil, List.append_assoc,
              List.cons_append, List.nil_append]
  obtain ⟨fs, hlength, hfs, hagree⟩ := hjoin [] (by simp)
  exact ⟨fs, hlength, by rw [bracketText, bracketed, hfs, List.nil_append], hagree⟩

end Field

end WardleyMap
