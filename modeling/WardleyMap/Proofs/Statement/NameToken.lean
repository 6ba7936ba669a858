import WardleyMap.Proofs.Name.Quote
import WardleyMap.Proofs.Statement.Opening

/-!
# Where names stand

A name on a line is a written form with nothing but blanks before it, and the reader reports the columns
of the written form. A quoted name says itself where it ends; a bare one is what trimming leaves of
a stretch that something else delimits. The name of a placement is delimited by the first bracket,
and `Placement.Written` has one case for either form.
-/

namespace WardleyMap

namespace Cursor

variable {c c' : Cursor}

theorem quotedName?_eq_some_iff {token : NameToken} : c.quotedName? = some token ↔
    ∃ q rest, Name.IsQuoted q ∧ c.rest = q ++ rest ∧
      token = ⟨⟨c.col, c.col + q.length⟩, Name.decode q⟩ := by
  unfold quotedName?
  rw [Option.map_eq_some_iff]
  constructor
  · rintro ⟨n, hlength, rfl⟩
    obtain ⟨q, rest, hrest, rfl, hquoted⟩ := Name.exists_isQuoted hlength
    exact ⟨q, rest, hquoted, hrest, by rw [hrest, List.take_left]⟩
  · rintro ⟨q, rest, hquoted, hrest, rfl⟩
    exact ⟨q.length, by rw [hrest, hquoted.quotedLength?_append], by rw [hrest, List.take_left]⟩

theorem quotedName?_eq_none_iff : c.quotedName? = none ↔ Name.quotedLength? c.rest = none := by
  rw [quotedName?, Option.map_eq_none_iff]

theorem bareName_eq {before name after : Text} (htrims : Text.Trims before name after)
    (h : Passes c (before ++ name ++ after) c') : c.bareName c'.col
      = ⟨⟨c.col + before.length, c.col + before.length + name.length⟩, name⟩ := by
  have htaken : c.rest.take (c'.col - c.col) = before ++ name ++ after := by
    rw [h.col, Nat.add_sub_cancel_left, h.rest, List.take_left]
  unfold bareName
  simp only [htaken, htrims.trim_eq, htrims.ofTrimmed_eq]

theorem exists_bareName (c : Cursor) (stop : Nat) : ∃ before name after,
    c.rest.take (stop - c.col) = before ++ name ++ after ∧ Text.Trims before name after ∧
    c.bareName stop = ⟨⟨c.col + before.length, c.col + before.length + name.length⟩, name⟩ := by
  obtain ⟨before, after, htext, htrims⟩ := Text.exists_trims (c.rest.take (stop - c.col))
  refine ⟨before, _, after, htext, htrims, ?_⟩
  have hspan := htrims.ofTrimmed_eq c.col
  rw [← htext] at hspan
  simp only [bareName, hspan]

end Cursor

namespace Placement

/-- How the name of a placement is written, from the place where it is looked for: the blanks before
it, the written form, what follows it, and the name that it stands for. -/
inductive Written : (before written rest value : Text) → Prop
  | quoted {q rest : Text} (isQuoted : Name.IsQuoted q) : Written [] q rest (Name.decode q)
  | bare {before name after rest : Text} (trims : Text.Trims before name after)
      (notQuoted : Name.quotedLength? (before ++ (name ++ (after ++ rest))) = none)
      (no_bracket : '[' ∉ before ++ name ++ after) (head : ∀ ch ∈ rest.head?, ch = '[') :
      Written before name (after ++ rest) name

/-- Every text can be read as a name and what follows it. -/
theorem exists_written (s : Text) : ∃ before written rest value,
    s = before ++ (written ++ rest) ∧ Written before written rest value := by
  cases hlength : Name.quotedLength? s with
  | some n =>
      obtain ⟨q, rest, rfl, -, hquoted⟩ := Name.exists_isQuoted hlength
      exact ⟨[], q, rest, Name.decode q, rfl, .quoted hquoted⟩
  | none =>
      obtain ⟨before, after, hname, htrims⟩ := Text.exists_trims (s.takeWhile (· != '['))
      have hs : s = before ++ (Text.trim (s.takeWhile (· != '[')) ++
          (after ++ s.dropWhile (· != '['))) := by
        rw [← List.append_assoc, ← List.append_assoc, ← hname]
        exact List.takeWhile_append_dropWhile.symm
      refine ⟨before, _, _, _, hs, .bare htrims (hs ▸ hlength) ?_ ?_⟩
      · rw [← hname]
        intro hmem
        simpa using List.mem_takeWhile_imp hmem
      · intro ch hch
        simpa using Text.head?_dropWhile ch hch

namespace Written

variable {before written rest value : Text}

/-- The name is read as it is written, whatever stands before it on the line. -/
theorem nameAt_eq (h : Written before written rest value) {c c' : Cursor}
    (hpass : c.Passes (before ++ written) c') (hrest : c'.rest = rest) :
    nameAt c = ⟨⟨c.col + before.length, c'.col⟩, value⟩ := by
  have hcol : c'.col = c.col + before.length + written.length := by
    rw [hpass.col, List.length_append, Nat.add_assoc]
  have hline : c.rest = before ++ (written ++ rest) := by
    rw [hpass.rest, hrest, List.append_assoc]
  unfold nameAt
  cases h with
  | quoted hquoted =>
      have hread := Cursor.quotedName?_eq_some_iff.mpr ⟨_, _, hquoted, hline, rfl⟩
      simp [hread, hcol]
  | @bare _ _ after tail htrims hnotQuoted hno_bracket hhead =>
      have hread : c.quotedName? = none := Cursor.quotedName?_eq_none_iff.mpr (hline ▸ hnotQuoted)
      have hsplit : c.rest = before ++ written ++ after ++ tail := by
        rw [hline]
        simp only [List.append_assoc]
      have htaken : c.rest.takeWhile (· != '[') = before ++ written ++ after := by
        rw [hsplit]
        exact Text.takeWhile_append_of_head (Text.bne_of_not_mem hno_bracket)
          fun ch hch => by simp [hhead ch hch]
      have hstretch : c.Passes (before ++ written ++ after)
          ⟨c.col + (before ++ written ++ after).length, tail⟩ := ⟨hsplit, rfl⟩
      simp only [hread, htaken]
      rw [hcol]
      exact Cursor.bareName_eq htrims hstretch

/-- What follows the name may change, if the name does not become a quoted one or get longer. -/
theorem of_rest (h : Written before written rest value) {after tail : Text}
    (hafter : after.isAllBlank = true) (hno_bracket : '[' ∉ after) (hhead : ∀ ch ∈ tail.head?, ch = '[')
    (hopen : Name.quotedLength? (before ++ (written ++ rest)) = none →
      Name.quotedLength? (before ++ (written ++ (after ++ tail))) = none) :
    Written before written (after ++ tail) value := by
  cases h with
  | quoted hquoted => exact .quoted hquoted
  | bare htrims hnotQuoted hfree _ =>
      refine .bare (htrims.of_after hafter) (hopen hnotQuoted) ?_ hhead
      simp only [List.mem_append, not_or] at hfree ⊢
      exact ⟨hfree.1, hno_bracket⟩

end Written

end Placement

end WardleyMap
