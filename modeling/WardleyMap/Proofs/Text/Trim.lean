import Mathlib.Data.List.TakeWhile
import WardleyMap.Text.Cursor

/-!
# What trimming takes away

A bare name is cut out of its line by trimming, and all later arguments about bare names need the
same three pieces: the blanks before the name, the name, the blanks after it. `Text.Trims` names
them, `Text.exists_trims` finds them and `Text.Trims.trim_eq` says that they are the only ones. A
blank text is the case to watch: nothing is left of it, and its blanks all count as those after
the name, because the empty name stands at the start.
-/

namespace WardleyMap

theorem isSpace_of_mem_space : ∀ c ∈ [' '], isSpace c = true := by
  intro c hc
  rw [List.mem_singleton.mp hc]
  rfl

theorem not_isSpace_of_not_isBlank {c : Char} (h : isBlank c = false) : isSpace c = false := by
  by_contra hspace
  rw [Bool.not_eq_false] at hspace
  rw [isBlank_of_isSpace hspace] at h
  exact absurd h (by decide)

namespace Text

theorem takeWhile_append_of_head {p : Char → Bool} {s rest : Text} (hs : ∀ c ∈ s, p c = true)
    (hrest : ∀ c ∈ rest.head?, p c = false) : (s ++ rest).takeWhile p = s := by
  rw [List.takeWhile_append_of_pos hs]
  cases rest with
  | nil => simp
  | cons c rest => simp [hrest c rfl]

theorem dropWhile_append_of_head {p : Char → Bool} {s rest : Text} (hs : ∀ c ∈ s, p c = true)
    (hrest : ∀ c ∈ rest.head?, p c = false) : (s ++ rest).dropWhile p = rest := by
  rw [List.dropWhile_append_of_pos hs]
  cases rest with
  | nil => rfl
  | cons c rest => simp [hrest c rfl]

/-- Where the characters of one kind end, a text is cut in one way only. -/
theorem append_inj_of_head {p : Char → Bool} {s s' rest rest' : Text} (hs : ∀ c ∈ s, p c = true)
    (hs' : ∀ c ∈ s', p c = true) (hrest : ∀ c ∈ rest.head?, p c = false)
    (hrest' : ∀ c ∈ rest'.head?, p c = false) (h : s ++ rest = s' ++ rest') : s = s' ∧ rest = rest' := by
  have htaken := congrArg (List.takeWhile p) h
  rw [takeWhile_append_of_head hs hrest, takeWhile_append_of_head hs' hrest'] at htaken
  subst htaken
  exact ⟨rfl, List.append_cancel_left h⟩

theorem bne_of_not_mem {s : Text} {c : Char} (h : c ∉ s) : ∀ d ∈ s, (d != c) = true := by
  intro d hd
  rw [bne_iff_ne]
  rintro rfl
  exact h hd

theorem head?_dropWhile {p : Char → Bool} {s : Text} : ∀ c ∈ (s.dropWhile p).head?, p c = false := by
  intro c hc
  have hhead := List.head?_dropWhile_not p s
  rw [Option.mem_def.mp hc] at hhead
  exact hhead

@[simp]
theorem isAllBlank_nil : isAllBlank [] = true := rfl

@[simp]
theorem isAllBlank_append (s t : Text) :
    isAllBlank (s ++ t) = (isAllBlank s && isAllBlank t) := by
  simp [isAllBlank]

theorem isAllBlank_iff {s : Text} : s.isAllBlank = true ↔ ∀ c ∈ s, isBlank c = true := by
  simp [isAllBlank]

/-- `name` is what trimming leaves of a text, `before` and `after` are the blanks that it takes
away. -/
structure Trims (before name after : Text) : Prop where
  before_blank : before.isAllBlank = true
  after_blank : after.isAllBlank = true
  head : ∀ c ∈ name.head?, isBlank c = false
  last : ∀ c ∈ name.getLast?, isBlank c = false
  before_nil : name = [] → before = []

theorem trimEnd_append {s after : Text} (hafter : after.isAllBlank = true)
    (hlast : ∀ c ∈ s.getLast?, isBlank c = false) : trimEnd (s ++ after) = s := by
  unfold trimEnd
  rw [List.reverse_append, dropWhile_append_of_head, List.reverse_reverse]
  · intro c hc
    exact isAllBlank_iff.mp hafter c (by simpa using hc)
  · intro c hc
    exact hlast c (by simpa using hc)

theorem exists_trimEnd (s : Text) : ∃ after, s = s.trimEnd ++ after ∧ after.isAllBlank = true ∧
    ∀ c ∈ s.trimEnd.getLast?, isBlank c = false := by
  refine ⟨(s.reverse.takeWhile isBlank).reverse, ?_, ?_, ?_⟩
  · rw [trimEnd, ← List.reverse_append, List.takeWhile_append_dropWhile, List.reverse_reverse]
  · exact isAllBlank_iff.mpr fun c hc => List.mem_takeWhile_imp (by simpa using hc)
  · intro c hc
    exact head?_dropWhile c (by simpa [trimEnd] using hc)

/-- What trimming takes away and what it leaves make up the text. -/
theorem exists_trims (s : Text) : ∃ before after, s = before ++ s.trim ++ after ∧
    Trims before s.trim after := by
  obtain ⟨after, hsplit, hafter, hlast⟩ := exists_trimEnd s.trimStart
  have hstart : s = s.takeWhile isBlank ++ s.trimStart := List.takeWhile_append_dropWhile.symm
  have hbefore : isAllBlank (s.takeWhile isBlank) = true :=
    isAllBlank_iff.mpr fun c hc => List.mem_takeWhile_imp hc
  have hhead : ∀ c ∈ s.trim.head?, isBlank c = false := by
    intro c hc
    refine head?_dropWhile (s := s) c ?_
    change c ∈ s.trimStart.head?
    rw [hsplit, List.head?_append]
    rw [Text.trim] at hc
    simp [Option.mem_def.mp hc]
  by_cases hname : s.trim = []
  · -- of a blank text nothing is left, and its blanks count as those after the name
    refine ⟨[], s, by simp [hname], ⟨rfl, ?_, hhead, hlast, fun _ => rfl⟩⟩
    have hblank : s.trimStart.isAllBlank = true := by
      rw [hsplit, show s.trimStart.trimEnd = [] from hname, List.nil_append]
      exact hafter
    rw [hstart, isAllBlank_append, hbefore, hblank, Bool.and_true]
  · refine ⟨s.takeWhile isBlank, after, ?_, ⟨hbefore, hafter, hhead, hlast, fun h => absurd h hname⟩⟩
    rw [List.append_assoc, show s.trim = s.trimStart.trimEnd from rfl, ← hsplit]
    exact hstart

namespace Trims

variable {before name after : Text}

/-- The parts determine what trimming leaves. -/
theorem trim_eq (h : Trims before name after) : trim (before ++ name ++ after) = name := by
  have hbefore := isAllBlank_iff.mp h.before_blank
  unfold trim trimStart
  rw [List.append_assoc]
  by_cases hname : name = []
  · subst hname
    rw [h.before_nil rfl, List.nil_append, List.nil_append]
    rw [List.dropWhile_eq_nil_iff.mpr (isAllBlank_iff.mp h.after_blank)]
    rfl
  · rw [dropWhile_append_of_head hbefore, trimEnd_append h.after_blank h.last]
    intro c hc
    refine h.head c ?_
    obtain ⟨d, name', rfl⟩ := List.exists_cons_of_ne_nil hname
    simpa using hc

theorem ofTrimmed_eq (h : Trims before name after) (col : Nat) :
    Span.ofTrimmed col (before ++ name ++ after)
      = ⟨col + before.length, col + before.length + name.length⟩ := by
  unfold Span.ofTrimmed
  rw [h.trim_eq]
  cases name with
  | nil => simp [h.before_nil rfl]
  | cons c name =>
      have hindent : indent (before ++ c :: name ++ after) = before.length := by
        unfold indent
        rw [List.append_assoc, takeWhile_append_of_head (isAllBlank_iff.mp h.before_blank)]
        intro d hd
        exact h.head d (by simpa using hd)
      simp only [hindent]

/-- What follows the name may change as long as it stays blank. -/
theorem of_after (h : Trims before name after) {after' : Text} (hafter : after'.isAllBlank = true) :
    Trims before name after' :=
  ⟨h.before_blank, hafter, h.head, h.last, h.before_nil⟩

end Trims

end Text

end WardleyMap
