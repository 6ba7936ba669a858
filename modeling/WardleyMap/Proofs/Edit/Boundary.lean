import WardleyMap.Proofs.Edit.Basic
import WardleyMap.Proofs.Name.Encode
import WardleyMap.Proofs.Statement.Columns

/-!
# The boundary of the keyword

A keyword is one as long as a blank, a bracket or the end of the line stands behind it. A replacement that
starts further right leaves that character alone, and an insertion that starts with a space may stand
anywhere; a written name may not stand right behind the keyword, for neither a quote nor the first
character of a bare name ends a keyword.
-/

namespace WardleyMap

/-! ### Replacing behind a column -/

namespace Replacement

theorem take_apply {r : Replacement} {line : Text} {n : Nat} (hn : n ≤ line.length)
    (hstart : n ≤ r.span.start) : (r.apply line).take n = line.take n := by
  rw [apply, List.append_assoc, List.take_append_of_le_length, List.take_take, Nat.min_eq_left hstart]
  rw [List.length_take]
  omega

/-- What stands in front of all replacements is kept. -/
theorem take_applyAll {rs : List Replacement} {line : Text} {n : Nat} (hn : n ≤ line.length)
    (hrs : ∀ r ∈ rs, n ≤ r.span.start) : (applyAll rs line).take n = line.take n := by
  have hfold : ∀ (rs : List Replacement) (line' : Text), (∀ r ∈ rs, n ≤ r.span.start) →
      line'.take n = line.take n →
      (rs.foldl (fun line r => r.apply line) line').take n = line.take n := by
    intro rs
    induction rs with
    | nil => exact fun line' _ htake => htake
    | cons r rs ih =>
        intro line' hrs htake
        have hn' : n ≤ line'.length := by
          have := congrArg List.length htake
          simp only [List.length_take] at this
          omega
        refine ih _ (fun s hs => hrs s (List.mem_cons_of_mem _ hs)) ?_
        rw [take_apply hn' (hrs r List.mem_cons_self), htake]
  exact hfold _ line (fun r hr => hrs r (mem_rightToLeft.mp hr)) rfl

end Replacement

/-! ### The keyword -/

def EndsKeyword (rest : Text) : Prop :=
  ∀ ch ∈ rest.head?, isBlank ch = true ∨ ch = '['

namespace Kind

variable {kind : Kind} {line : Text} {c : Cursor}

/-- A keyword is recognized by the first character behind it. -/
theorem open?_append {lead : Text} (hlead : ∀ ch ∈ lead, isSpace ch = true) (rest : Text) :
    (kind.open? (lead ++ (kind.keyword ++ rest))).isSome = true ↔ EndsKeyword rest := by
  have hpassLead := Cursor.Passes.mk_append 0 lead (kind.keyword ++ rest)
  have hpassWord := Cursor.Passes.mk_append (0 + lead.length) kind.keyword rest
  unfold Kind.open? Cursor.ofLine
  rw [Cursor.skipSpaces_eq hpassLead hlead (head_keyword_append kind rest), Option.isSome_iff_exists]
  constructor
  · rintro ⟨c, hc⟩
    obtain ⟨hpass, hboundary⟩ := Cursor.keyword?_eq_some_iff.mp hc
    obtain rfl := hpass.right_unique hpassWord
    exact atBoundary_iff.mp hboundary
  · intro hrest
    exact ⟨_, Cursor.keyword?_eq_some_iff.mpr ⟨hpassWord, atBoundary_iff.mpr hrest⟩⟩

/-- What is written behind the keyword decides whether it is one still. -/
theorem isSome_open?_take_append (h : kind.open? line = some c) (rest : Text) :
    (kind.open? (line.take c.col ++ rest)).isSome = true ↔ EndsKeyword rest := by
  obtain ⟨lead, hlead, hpass, -⟩ := exists_lead h
  obtain ⟨hline, hcol⟩ := Cursor.passes_ofLine_iff.mp hpass
  rw [hcol, hline, List.take_left, List.append_assoc]
  exact open?_append hlead rest

/-- Replacements that start behind the first character after the keyword cannot change whether it is one. -/
theorem isSome_open?_applyAll {rs : List Replacement} (h : kind.open? line = some c)
    (hrs : ∀ r ∈ rs, c.col < r.span.start ∧ c.Reaches r.span.start) :
    (kind.open? (Replacement.applyAll rs line)).isSome = true := by
  obtain ⟨lead, hlead, hpass, hboundary⟩ := exists_lead h
  obtain ⟨hline, hcol⟩ := Cursor.passes_ofLine_iff.mp hpass
  cases rs with
  | nil =>
      change (kind.open? line).isSome = true
      rw [h]
      rfl
  | cons r rs =>
      obtain ⟨hlt, hreach⟩ := hrs r List.mem_cons_self
      obtain ⟨ch, rest, hrest⟩ := List.exists_cons_of_ne_nil (hreach.rest_ne_nil hlt)
      have hlength : c.col + 1 ≤ line.length := by
        rw [hline, hrest, hcol]
        simp only [List.length_append, List.length_cons]
        omega
      have hfront : ((lead ++ kind.keyword) ++ [ch]).length = c.col + 1 := by
        rw [hcol, List.length_append, List.length_singleton]
      have htake : (Replacement.applyAll (r :: rs) line).take (c.col + 1)
          = lead ++ (kind.keyword ++ [ch]) := by
        rw [Replacement.take_applyAll hlength fun r hr => (hrs r hr).1, hline, hrest,
          ← List.singleton_append, ← List.append_assoc, ← hfront, List.take_left, List.append_assoc]
      rw [← List.take_append_drop (c.col + 1) (Replacement.applyAll (r :: rs) line), htake,
        List.append_assoc, List.append_assoc, open?_append hlead]
      intro d hd
      refine atBoundary_iff.mp hboundary d ?_
      rw [hrest]
      simpa using hd

theorem isSome_open?_insertion {col : Nat} (h : kind.open? line = some c) (hcol : c.Reaches col)
    (new : Text) :
    (kind.open? (Replacement.applyAll [.insertion col (' ' :: new)] line)).isSome = true := by
  rcases Nat.lt_or_eq_of_le hcol.le with hlt | rfl
  · refine isSome_open?_applyAll h fun r hr => ?_
    rw [List.mem_singleton.mp hr]
    exact ⟨hlt, hcol⟩
  · rw [Replacement.applyAll_insertion_eq, isSome_open?_take_append h]
    intro ch hch
    obtain rfl : ' ' = ch := by simpa using hch
    exact Or.inl rfl

theorem isSome_open?_writeNumbers {numbers : List Number} {precision : Nat} {values : List Float}
    (h : kind.open? line = some c) (hnumbers : ∀ number ∈ numbers, c.Shows number) :
    (kind.open? (Replacement.applyAll (writeNumbers precision numbers values) line)).isSome = true := by
  obtain ⟨-, -, -, hboundary⟩ := exists_lead h
  refine isSome_open?_applyAll h fun r hr => ?_
  unfold writeNumbers at hr
  dsimp only at hr
  split at hr
  · simp at hr
  · obtain ⟨⟨number, value⟩, hmem, rfl⟩ := List.mem_map.mp hr
    have hshows := hnumbers number (List.of_mem_zip hmem).1
    exact ⟨hshows.lt hboundary, hshows.reaches_start⟩

theorem isSome_open?_writeBracket {bracket : Option Bracket} {col precision : Nat}
    {values : List Float} (h : kind.open? line = some c)
    (hbracket : ∀ b ∈ bracket, ∀ number ∈ b.values, c.Shows number) (hcol : c.Reaches col) :
    (kind.open? (Replacement.applyAll (writeBracket precision bracket col values) line)).isSome
      = true := by
  cases bracket with
  | some bracket => exact isSome_open?_writeNumbers h (hbracket bracket rfl)
  | none => exact isSome_open?_insertion h hcol _

theorem isSome_open?_writeLabel {label : Option LabelClause} {col precision : Nat} {dx dy : Float}
    (h : kind.open? line = some c)
    (hlabel : ∀ l ∈ label, ∀ number ∈ [l.dx, l.dy], c.Shows number) (hcol : c.Reaches col) :
    (kind.open? (Replacement.applyAll (writeLabel precision label col dx dy) line)).isSome = true := by
  cases label with
  | some label => exact isSome_open?_writeNumbers h (hlabel label rfl)
  | none => exact isSome_open?_insertion h hcol _

end Kind

/-! ### Names -/

/-- The first character of a written name is never one that ends a keyword, so a name needs a gap in front of
it. -/
theorem Name.not_endsKeyword_encode {name : Text} (h : name.isAllBlank = false) (rest : Text) :
    ¬EndsKeyword (encode name ++ rest) := by
  obtain ⟨c, s, rfl⟩ : ∃ c s, name = c :: s := by
    refine List.exists_cons_of_ne_nil ?_
    rintro rfl
    exact absurd h (by decide)
  intro hends
  unfold encode at hends
  split at hends
  · exact absurd (hends '"' rfl) (by decide)
  · next hneeds =>
      have hbare := isBare_iff.mp (by simpa using hneeds)
      rcases hends c rfl with hblank | rfl
      · rw [hbare.head c rfl] at hblank
        exact absurd hblank (by decide)
      · exact hbare.not_mem rfl List.mem_cons_self

end WardleyMap
