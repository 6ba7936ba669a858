import WardleyMap.Proofs.Name.Backslash
import WardleyMap.Proofs.Name.Encode
import WardleyMap.Proofs.Text.Words

/-!
# The normal form of a name

Names are compared by a form in which escaped line breaks are expanded, blanks folded and ASCII letters
lowered, in this order. The order matters to one pair of characters. A backslash before a capital `N` is no
escaped line break, but once lowered it looks like one, so the normal form of such a name is not its own
normal form, and it differs from that of the same name in small letters. `Name.normalize_canonical` says that
nothing else goes wrong: among names without that pair the normal form is a fixed point, and names that differ
in case and blanks alone have the same one.

What tells two normal forms apart is the number of their backslashes, of which every expanded line break has
cost one.
-/

namespace WardleyMap

namespace Text.SameWords

variable {s t g h : Text}

/-- It does not matter how many blanks stand somewhere, if there are any. -/
theorem gap (hg : g ≠ []) (hh : h ≠ []) (hgap : g.isAllBlank = true) (hgap' : h.isAllBlank = true)
    (hwords : s.words = t.words) : SameWords (g ++ s) (h ++ t) := by
  obtain ⟨c, g, rfl⟩ := List.exists_cons_of_ne_nil hg
  obtain ⟨d, h, rfl⟩ := List.exists_cons_of_ne_nil hh
  obtain ⟨hc, hgap⟩ : isBlank c = true ∧ isAllBlank g = true := by simpa [isAllBlank] using hgap
  obtain ⟨hd, hgap'⟩ : isBlank d = true ∧ isAllBlank h = true := by simpa [isAllBlank] using hgap'
  refine ⟨?_, ?_⟩
  · rw [List.cons_append, List.cons_append, split_cons_of_pos hc, split_cons_of_pos hd, List.head?_cons,
      List.head?_cons]
  · rw [List.cons_append, List.cons_append, split_cons_of_pos hc, split_cons_of_pos hd]
    exact (words_append_of_isAllBlank hgap s).trans
      (hwords.trans (words_append_of_isAllBlank hgap' t).symm)

/-- Blanks at the end are in no word. -/
theorem append_blank (hgap : g.isAllBlank = true) (s : Text) : SameWords (s ++ g) s := by
  induction s with
  | cons c s ih => exact ih.cons c
  | nil =>
      cases g with
      | nil => exact .refl []
      | cons c g =>
          obtain ⟨hc, hgap⟩ : isBlank c = true ∧ isAllBlank g = true := by simpa [isAllBlank] using hgap
          have hwords := words_append_of_isAllBlank hgap []
          rw [List.append_nil] at hwords
          rw [List.nil_append]
          refine ⟨?_, ?_⟩
          · rw [split_cons_of_pos hc]
            rfl
          · rw [split_cons_of_pos hc]
            exact hwords

end Text.SameWords

open Text

namespace Name

/-- A backslash that the letter follows. -/
def HasMark (letter : Char) (name : Text) : Prop :=
  ['\\', letter] <:+: name

instance (letter : Char) (name : Text) : Decidable (HasMark letter name) :=
  inferInstanceAs (Decidable (['\\', letter] <:+: name))

/-- The two texts differ in the case of ASCII letters, and in the blanks that stand where either has
some. -/
inductive Varies : Text → Text → Prop
  | nil : Varies [] []
  | letter {c d : Char} {s t : Text} (same : c.toLower = d.toLower) (rest : Varies s t) :
      Varies (c :: s) (d :: t)
  | gap {g h s t : Text} (ne_nil : g ≠ []) (ne_nil' : h ≠ []) (blank : g.isAllBlank = true)
      (blank' : h.isAllBlank = true) (rest : Varies s t) : Varies (g ++ s) (h ++ t)

/-- The two names differ in the case of ASCII letters, in the blanks between their words, and in the blanks in
front and behind. -/
def IsVariant (a b : Text) : Prop :=
  ∃ front s behind front' t behind', a = front ++ (s ++ behind) ∧ b = front' ++ (t ++ behind') ∧
    (front.isAllBlank ∧ behind.isAllBlank ∧ front'.isAllBlank ∧ behind'.isAllBlank) ∧ Varies s t

variable {a b name s t : Text} {c d letter : Char}

/-! ### Marks -/

theorem hasMark_cons : HasMark letter (c :: s) ↔
    (c = '\\' ∧ s.head? = some letter) ∨ HasMark letter s := by
  rw [HasMark, List.infix_cons_iff, List.cons_prefix_cons, eq_comm]
  refine or_congr (and_congr_right fun _ => ?_) Iff.rfl
  cases s with
  | nil => simp
  | cons d s => simp [List.cons_prefix_cons, eq_comm]

theorem not_hasMark_nil : ¬HasMark letter [] := by
  simp [HasMark]

theorem hasMark_fold (hletter : isBlank letter = false) (s : Text) :
    HasMark letter s.fold ↔ HasMark letter s := by
  refine infix_fold_iff (by simp) fun c hc => ?_
  rcases List.mem_pair.mp hc with rfl | rfl
  · decide
  · exact hletter

theorem hasMark_map_toLower (s : Text) :
    HasMark 'n' (s.map Char.toLower) ↔ HasMark 'n' s ∨ HasMark 'N' s := by
  induction s with
  | nil => simp [not_hasMark_nil]
  | cons c s ih =>
      have hhead : (s.map Char.toLower).head? = some 'n' ↔ s.head? = some 'n' ∨ s.head? = some 'N' := by
        cases s with
        | nil => simp
        | cons d s => simpa using toLower_eq_n_iff
      rw [List.map_cons, hasMark_cons, hasMark_cons, hasMark_cons, toLower_eq_backslash_iff, hhead, ih]
      tauto

/-! ### Expanding line breaks -/

theorem expandBreaks_cons (h : ¬(c = '\\' ∧ s.head? = some 'n')) :
    expandBreaks (c :: s) = c :: expandBreaks s := by
  rw [expandBreaks]
  rintro s' rfl rfl
  exact h ⟨rfl, rfl⟩

/-- A break mark is not formed across the seam unless the second part starts with the letter. -/
theorem expandBreaks_append (s : Text) (h : t.head? ≠ some 'n') :
    expandBreaks (s ++ t) = expandBreaks s ++ expandBreaks t := by
  induction s using expandBreaks.induct with
  | case1 => rfl
  | case2 s ih =>
      rw [List.cons_append, List.cons_append, expandBreaks, ih, expandBreaks]
      rfl
  | case3 c s hmark ih =>
      have hs : ¬(c = '\\' ∧ s.head? = some 'n') := by
        rintro ⟨rfl, hhead⟩
        obtain ⟨s', rfl⟩ := List.head?_eq_some_iff.mp hhead
        exact hmark s' rfl rfl
      have hst : ¬(c = '\\' ∧ (s ++ t).head? = some 'n') := by
        rintro ⟨rfl, hhead⟩
        cases s with
        | nil => exact h hhead
        | cons d s => exact hs ⟨rfl, hhead⟩
      rw [List.cons_append, expandBreaks_cons hst, expandBreaks_cons hs, ih]
      rfl

theorem expandBreaks_eq_self (h : ¬HasMark 'n' s) : expandBreaks s = s := by
  induction s with
  | nil => rfl
  | cons c s ih =>
      rw [hasMark_cons, not_or] at h
      rw [expandBreaks_cons h.1, ih h.2]

theorem expandBreaks_of_isAllBlank (h : s.isAllBlank = true) : expandBreaks s = s := by
  refine expandBreaks_of_not_mem fun hmem => ?_
  exact absurd (isAllBlank_iff.mp h _ hmem) (by decide)

/-- Expanding leaves no escaped line break, and makes no other mark. -/
theorem hasMark_expandBreaks (s : Text) :
    ¬HasMark 'n' (expandBreaks s) ∧ (HasMark 'N' (expandBreaks s) ↔ HasMark 'N' s) := by
  induction s using expandBreaks.induct with
  | case1 => exact ⟨not_hasMark_nil, Iff.rfl⟩
  | case2 s ih => simpa [expandBreaks, hasMark_cons] using ih
  | case3 c s hmark ih =>
      have hs : ¬(c = '\\' ∧ s.head? = some 'n') := by
        rintro ⟨rfl, hhead⟩
        obtain ⟨s', rfl⟩ := List.head?_eq_some_iff.mp hhead
        exact hmark s' rfl rfl
      -- where a mark starts, the expanded text shows a line feed
      have hhead : ∀ ch : Char, ch ≠ '\n' → ch ≠ '\\' →
          ((expandBreaks s).head? = some ch ↔ s.head? = some ch) := by
        intro ch hfeed hbackslash
        induction s using expandBreaks.induct with
        | case1 => rfl
        | case2 s _ => simp [expandBreaks, hfeed.symm, hbackslash.symm]
        | case3 d s hmark' _ =>
            rw [expandBreaks]
            · rfl
            · exact hmark'
      rw [expandBreaks_cons hs, hasMark_cons, hasMark_cons, hasMark_cons,
        hhead 'n' (by decide) (by decide), hhead 'N' (by decide) (by decide), or_iff_right hs]
      exact ⟨ih.1, or_congr_right ih.2⟩

theorem count_expandBreaks_le (s : Text) : (expandBreaks s).count '\\' ≤ s.count '\\' := by
  induction s using expandBreaks.induct with
  | case1 => rfl
  | case2 s ih =>
      simp only [expandBreaks, List.count_cons]
      simp
      omega
  | case3 c s hmark ih =>
      rw [expandBreaks.eq_3 c s hmark, List.count_cons, List.count_cons]
      omega

/-- Expanding takes away the backslash of a line break, and keeps that of a capital. -/
theorem expandBreaks_mark (front behind : Text) :
    expandBreaks (front ++ '\\' :: 'n' :: behind) = expandBreaks front ++ '\n' :: expandBreaks behind ∧
    expandBreaks (front ++ '\\' :: 'N' :: behind)
      = expandBreaks front ++ '\\' :: 'N' :: expandBreaks behind := by
  refine ⟨?_, ?_⟩
  · rw [expandBreaks_append _ (by simp), expandBreaks]
  · rw [expandBreaks_append _ (by simp), expandBreaks_cons (by simp), expandBreaks_cons (by simp)]

theorem expandBreaks_append_of_isAllBlank {gap : Text} (h : gap.isAllBlank = true) (s : Text) :
    expandBreaks (gap ++ s) = gap ++ expandBreaks s := by
  induction gap with
  | nil => rfl
  | cons c gap ih =>
      obtain ⟨hc, hgap⟩ : isBlank c = true ∧ isAllBlank gap = true := by simpa [isAllBlank] using h
      have hmark : ¬(c = '\\' ∧ (gap ++ s).head? = some 'n') := by
        rintro ⟨rfl, -⟩
        exact absurd hc (by decide)
      rw [List.cons_append, expandBreaks_cons hmark, ih hgap, List.cons_append]

/-! ### Variants -/

theorem Varies.refl (s : Text) : Varies s s := by
  induction s with
  | nil => exact .nil
  | cons c s ih => exact .letter rfl ih

theorem Varies.symm (h : Varies s t) : Varies t s := by
  induction h with
  | nil => exact .nil
  | letter same _ ih => exact .letter same.symm ih
  | gap ne_nil ne_nil' blank blank' _ ih => exact .gap ne_nil' ne_nil blank' blank ih

/-- A character that is no blank has its counterpart in every variant. -/
theorem Varies.exists_cons (h : Varies (c :: s) t) (hc : isBlank c = false) :
    ∃ d t', t = d :: t' ∧ c.toLower = d.toLower ∧ Varies s t' := by
  generalize hs : c :: s = whole at h
  cases h with
  | nil => exact absurd hs (by simp)
  | letter same rest =>
      obtain ⟨rfl, rfl⟩ := List.cons.inj hs
      exact ⟨_, _, rfl, same, rest⟩
  | @gap g _ _ _ ne_nil _ blank _ _ =>
      obtain ⟨d, g, rfl⟩ := List.exists_cons_of_ne_nil ne_nil
      obtain rfl : c = d := List.head_eq_of_cons_eq hs
      rw [isAllBlank_iff.mp blank c List.mem_cons_self] at hc
      exact absurd hc (by decide)

theorem Varies.append_left (front : Text) (h : Varies s t) : Varies (front ++ s) (front ++ t) := by
  induction front with
  | nil => exact h
  | cons c front ih => exact .letter rfl ih

/-- Where no capital follows a backslash, the variant of an escaped line break is one too. -/
theorem Varies.exists_break (h : Varies ('\\' :: 'n' :: s) t) (hmark : ¬HasMark 'N' t) :
    ∃ t', t = '\\' :: 'n' :: t' := by
  obtain ⟨c, t₁, rfl, hc, hrest⟩ := h.exists_cons (by decide)
  obtain ⟨d, t₂, rfl, hd, -⟩ := hrest.exists_cons (by decide)
  obtain rfl : c = '\\' := toLower_eq_backslash_iff.mp hc.symm
  rw [hasMark_cons, not_or] at hmark
  rcases toLower_eq_n_iff.mp hd.symm with rfl | rfl
  · exact ⟨t₂, rfl⟩
  · exact absurd ⟨rfl, rfl⟩ hmark.1

/-- Texts without capital marks have their break marks in the same places, so expanding these keeps the texts
alike. -/
theorem Varies.expandBreaks (h : Varies s t) (hs : ¬HasMark 'N' s) (ht : ¬HasMark 'N' t) :
    Varies (expandBreaks s) (expandBreaks t) := by
  induction h with
  | nil => exact .nil
  | @letter c d s t same rest ih =>
      have ih := ih (fun h => hs (hasMark_cons.mpr (.inr h))) (fun h => ht (hasMark_cons.mpr (.inr h)))
      by_cases hbreak : c = '\\' ∧ s.head? = some 'n'
      · obtain ⟨rfl, hhead⟩ := hbreak
        obtain ⟨s, rfl⟩ := List.head?_eq_some_iff.mp hhead
        obtain ⟨t', ht'⟩ := (Varies.letter same rest).exists_break ht
        obtain ⟨rfl, rfl⟩ := List.cons.inj ht'
        rw [expandBreaks_cons (by simp), expandBreaks_cons (by simp)] at ih
        obtain ⟨_, _, heq, -, hrest⟩ := ih.exists_cons (by decide)
        rw [← (List.cons.inj heq).2] at hrest
        exact .letter rfl hrest
      · have hbreak' : ¬(d = '\\' ∧ t.head? = some 'n') := by
          rintro ⟨rfl, hhead⟩
          obtain ⟨t, rfl⟩ := List.head?_eq_some_iff.mp hhead
          obtain ⟨s', hs'⟩ := (Varies.letter same rest).symm.exists_break hs
          obtain ⟨rfl, rfl⟩ := List.cons.inj hs'
          exact hbreak ⟨rfl, rfl⟩
        rw [expandBreaks_cons hbreak, expandBreaks_cons hbreak']
        exact .letter same ih
  | @gap g h s t ne_nil ne_nil' blank blank' _ ih =>
      rw [expandBreaks_append_of_isAllBlank blank, expandBreaks_append_of_isAllBlank blank']
      refine .gap ne_nil ne_nil' blank blank' (ih ?_ ?_)
      · exact fun h => hs (h.trans (List.suffix_append _ _).isInfix)
      · exact fun h => ht (h.trans (List.suffix_append _ _).isInfix)

/-- In small letters, variants have the same words. -/
theorem Varies.sameWords (h : Varies s t) :
    SameWords (s.map Char.toLower) (t.map Char.toLower) := by
  induction h with
  | nil => exact .refl _
  | letter same _ ih =>
      rw [List.map_cons, List.map_cons, same]
      exact ih.cons _
  | @gap g h _ _ ne_nil ne_nil' blank blank' _ ih =>
      rw [List.map_append, List.map_append]
      exact .gap (by simpa using ne_nil) (by simpa using ne_nil') (isAllBlank_map_toLower.trans blank)
        (isAllBlank_map_toLower.trans blank') ih.words_eq

theorem IsVariant.of_varies (h : Varies s t) : IsVariant s t :=
  ⟨[], s, [], [], t, [], (List.append_nil s).symm, (List.append_nil t).symm,
    ⟨rfl, rfl, rfl, rfl⟩, h⟩

/-- Without the capital mark, expanding the breaks keeps variants variants. -/
theorem IsVariant.expandBreaks (h : IsVariant a b) (ha : ¬HasMark 'N' a) (hb : ¬HasMark 'N' b) :
    IsVariant (expandBreaks a) (expandBreaks b) := by
  obtain ⟨front, s, behind, front', t, behind', rfl, rfl, hblank, hvaries⟩ := h
  have hparts : ∀ front s behind : Text, front.isAllBlank → behind.isAllBlank →
      Name.expandBreaks (front ++ (s ++ behind)) = front ++ (Name.expandBreaks s ++ behind) := by
    intro front s behind hfront hbehind
    have hhead : behind.head? ≠ some 'n' := by
      intro hhead
      obtain ⟨rest, rfl⟩ := List.head?_eq_some_iff.mp hhead
      exact absurd (isAllBlank_iff.mp hbehind 'n' List.mem_cons_self) (by decide)
    rw [expandBreaks_append_of_isAllBlank hfront, expandBreaks_append s hhead,
      expandBreaks_of_isAllBlank hbehind]
  have hs : s <:+: front ++ (s ++ behind) := ⟨front, behind, by simp⟩
  have ht : t <:+: front' ++ (t ++ behind') := ⟨front', behind', by simp⟩
  exact ⟨front, _, behind, front', _, behind', hparts _ _ _ hblank.1 hblank.2.1,
    hparts _ _ _ hblank.2.2.1 hblank.2.2.2, hblank,
    hvaries.expandBreaks (fun h => ha (h.trans hs)) fun h => hb (h.trans ht)⟩

/-- In small letters and with their blanks folded, variants are one text. -/
theorem IsVariant.fold_eq (h : IsVariant a b) : fold (a.map Char.toLower) = fold (b.map Char.toLower) := by
  obtain ⟨front, s, behind, front', t, behind', rfl, rfl, ⟨hfront, hbehind, hfront', hbehind'⟩, hvaries⟩ := h
  have hwords : ∀ front s behind : Text, front.isAllBlank → behind.isAllBlank →
      words ((front ++ (s ++ behind)).map Char.toLower) = words (s.map Char.toLower) := by
    intro front s behind hfront hbehind
    rw [List.map_append, List.map_append,
      words_append_of_isAllBlank (isAllBlank_map_toLower.trans hfront),
      (SameWords.append_blank (isAllBlank_map_toLower.trans hbehind) _).words_eq]
  rw [fold, fold, hwords _ _ _ hfront hbehind, hwords _ _ _ hfront' hbehind', hvaries.sameWords.words_eq]

theorem IsVariant.hasMark_iff (h : IsVariant a b) :
    HasMark 'n' a ∨ HasMark 'N' a ↔ HasMark 'n' b ∨ HasMark 'N' b := by
  have hmark : ∀ s : Text, HasMark 'n' (fold (s.map Char.toLower)) ↔ HasMark 'n' s ∨ HasMark 'N' s :=
    fun s => (hasMark_fold (by decide) _).trans (hasMark_map_toLower s)
  rw [← hmark a, ← hmark b, h.fold_eq]

/-! ### Normal forms -/

theorem normalize_eq (name : Text) : normalize name = fold ((expandBreaks name).map Char.toLower) :=
  (fold_map_toLower _).symm

theorem hasMark_normalize (name : Text) : HasMark 'n' (normalize name) ↔ HasMark 'N' name := by
  obtain ⟨hnone, hcapital⟩ := hasMark_expandBreaks name
  rw [normalize_eq, hasMark_fold (by decide), hasMark_map_toLower, or_iff_right hnone, hcapital]

theorem count_normalize (name : Text) :
    (normalize name).count '\\' = (expandBreaks name).count '\\' := by
  rw [normalize_eq, count_fold (by decide), List.count_eq_countP, List.countP_map, List.count_eq_countP]
  refine List.countP_congr fun c _ => ?_
  simp [toLower_eq_backslash_iff]

/-- A line break that is escaped again by the lowering is expanded by a second round. -/
theorem normalize_normalize_iff (name : Text) :
    normalize (normalize name) = normalize name ↔ ¬HasMark 'N' name := by
  rw [← hasMark_normalize]
  constructor
  · rintro hsame ⟨front, behind, hname⟩
    have hcount := count_normalize (normalize name)
    have hfront := count_expandBreaks_le front
    have hbehind := count_expandBreaks_le behind
    rw [hsame, ← hname, List.append_assoc, List.cons_append, List.cons_append, List.nil_append,
      (expandBreaks_mark front behind).1] at hcount
    simp only [List.count_append, List.count_cons] at hcount
    simp at hcount
    omega
  · intro hnone
    rw [normalize_eq (normalize name), expandBreaks_eq_self hnone, normalize, fold_map_toLower,
      fold_map_toLower, fold_fold, List.map_map]
    exact List.map_congr_left fun c _ => toLower_toLower c

/-- Where no capital follows a backslash, letter case and blanks make no difference. -/
theorem IsVariant.agrees (h : IsVariant a b) (ha : ¬HasMark 'N' a) (hb : ¬HasMark 'N' b) :
    agrees a b = true := by
  rw [Name.agrees, beq_iff_eq, normalize_eq, normalize_eq]
  exact (h.expandBreaks ha hb).fold_eq

/-- The mark in small letters loses its backslash, the one with a capital keeps it. -/
theorem not_agrees_mark (front behind : Text) :
    normalize (front ++ '\\' :: 'n' :: behind) ≠ normalize (front ++ '\\' :: 'N' :: behind) := by
  intro hsame
  have hcount := congrArg (List.count '\\') hsame
  obtain ⟨hbreak, hcapital⟩ := expandBreaks_mark front behind
  rw [count_normalize, count_normalize, hbreak, hcapital] at hcount
  simp [List.count_append] at hcount

/-- A name with a mark has a variant that the comparison takes for another name. -/
theorem exists_isVariant_not_agrees (h : HasMark 'n' name ∨ HasMark 'N' name) :
    ∃ b, IsVariant name b ∧ Name.agrees name b = false := by
  rcases h with ⟨front, behind, rfl⟩ | ⟨front, behind, rfl⟩
  · rw [List.append_assoc, List.cons_append, List.cons_append, List.nil_append]
    refine ⟨front ++ '\\' :: 'N' :: behind, .of_varies (.append_left front ?_), ?_⟩
    · exact .letter rfl (.letter (by decide) (.refl behind))
    · rw [Name.agrees, beq_eq_false_iff_ne]
      exact not_agrees_mark front behind
  · rw [List.append_assoc, List.cons_append, List.cons_append, List.nil_append]
    refine ⟨front ++ '\\' :: 'n' :: behind, .of_varies (.append_left front ?_), ?_⟩
    · exact .letter rfl (.letter (by decide) (.refl behind))
    · rw [Name.agrees, beq_eq_false_iff_ne]
      exact (not_agrees_mark front behind).symm

/-- The normal form of a name is its own normal form unless a capital `N` follows a backslash. Variants of
a name go by that name where neither has such a capital, and all of them do exactly if no backslash of the
name is followed by an `n` of either case. -/
theorem normalize_canonical (name : Text) :
    (normalize (normalize name) = normalize name ↔ ¬HasMark 'N' name) ∧
    (∀ b, IsVariant name b → ¬HasMark 'N' name → ¬HasMark 'N' b → agrees name b = true) ∧
    ((∀ b, IsVariant name b → agrees name b = true) ↔ ¬HasMark 'n' name ∧ ¬HasMark 'N' name) := by
  refine ⟨normalize_normalize_iff name, fun b h => h.agrees, ?_⟩
  constructor
  · intro hall
    rw [← not_or]
    intro hmark
    obtain ⟨b, hvariant, hnot⟩ := exists_isVariant_not_agrees hmark
    rw [hall b hvariant] at hnot
    exact absurd hnot (by decide)
  · rintro ⟨hsmall, hcapital⟩ b hvariant
    have hmark := hvariant.hasMark_iff.not.mp (not_or.mpr ⟨hsmall, hcapital⟩)
    exact hvariant.agrees hcapital (not_or.mp hmark).2

/-- Letter case, the blanks between words and an escaped line break do not tell names apart. -/
theorem agrees_in_other_case :
    IsVariant ['H', 'o', 't', '\\', 'n', ' ', 'T', 'e', 'a']
        [' ', 'h', 'O', 'T', '\\', 'n', '\t', ' ', 't', 'E', 'A'] ∧
      agrees ['H', 'o', 't', '\\', 'n', ' ', 'T', 'e', 'a']
        [' ', 'h', 'O', 'T', '\\', 'n', '\t', ' ', 't', 'E', 'A'] = true := by
  have hvariant : IsVariant ['H', 'o', 't', '\\', 'n', ' ', 'T', 'e', 'a']
      [' ', 'h', 'O', 'T', '\\', 'n', '\t', ' ', 't', 'E', 'A'] := by
    refine ⟨[], ['H', 'o', 't', '\\', 'n', ' ', 'T', 'e', 'a'], [], [' '],
      ['h', 'O', 'T', '\\', 'n', '\t', ' ', 't', 'E', 'A'], [], rfl, rfl, by decide, ?_⟩
    refine .letter rfl (.letter rfl (.letter rfl (.letter rfl (.letter rfl ?_))))
    exact .gap (g := [' ']) (h := ['\t', ' ']) (by simp) (by simp) rfl rfl
      (.letter rfl (.letter rfl (.letter rfl .nil)))
  exact ⟨hvariant, (normalize_canonical _).2.1 _ hvariant (by decide) (by decide)⟩

/-- A capital behind a backslash: the normal form is not a normal form, and the same name in small letters
is another name. -/
theorem not_canonical_capital :
    ¬((∀ name : Text, normalize (normalize name) = normalize name) ∧
      ∀ a b : Text, IsVariant a b → agrees a b = true) ∧
    normalize (normalize ['\\', 'N']) ≠ normalize ['\\', 'N'] ∧
    IsVariant ['a', '\\', 'n', 'b'] ['A', '\\', 'N', 'B'] ∧
      agrees ['a', '\\', 'n', 'b'] ['A', '\\', 'N', 'B'] = false := by
  have hnot : normalize (normalize ['\\', 'N']) ≠ normalize ['\\', 'N'] := by decide
  refine ⟨fun h => hnot (h.1 _), hnot, .of_varies ?_, by decide⟩
  exact .letter rfl (.letter rfl (.letter rfl (.letter rfl .nil)))

end Name

end WardleyMap
