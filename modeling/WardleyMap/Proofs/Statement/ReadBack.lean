import WardleyMap.Proofs.Statement.WrittenName

/-!
# Where a name that was written is read again

The encoder writes a name without looking at what stands around it, and the reader of a placement
knows nothing but what stands there. The question here is whether the reader takes exactly the characters
that were written: between quotes they have to be closed by the quote that was written last, and otherwise
nothing may stand behind them that belongs to a bare name too. `Placement.ReadsBack` says so, and
`Placement.Written.eq_encode_iff` that this is all there is to it.

What the reader makes of these characters is another matter. It can take them all and still read
another name, but it cannot read the same name and take others: `Placement.Written.eq_encode_of_value`.
Neither the writer nor the reader of a quoted name adds or drops a quote, so counting quotes tells
apart any two places where a name could end.
-/

namespace WardleyMap

/-- Of the texts that begin one text and end with `c`, no two hold `c` equally often. -/
theorem Text.eq_of_count_eq {s t rest rest' : Text} {c : Char} (h : s ++ rest = t ++ rest')
    (hs : s.getLast? = some c) (ht : t.getLast? = some c) (hcount : s.count c = t.count c) : s = t := by
  have hshorter {s m : Text} (hlast : (s ++ m).getLast? = some c)
      (hcount : (s ++ m).count c = s.count c) : m = [] := by
    by_contra hne
    rw [List.getLast?_append_of_ne_nil s hne] at hlast
    have hpos := List.count_pos_iff.mpr (List.mem_of_getLast? hlast)
    rw [List.count_append] at hcount
    omega
  rcases List.append_eq_append_iff.mp h with ⟨m, rfl, -⟩ | ⟨m, rfl, -⟩
  · rw [hshorter ht hcount.symm, List.append_nil]
  · rw [hshorter hs hcount, List.append_nil]

namespace Name

/-! ### Quotes in a written name -/

theorem count_quote_escape (name : Text) : (escape name).count '"' = name.count '"' := by
  induction name using escape.induct with
  | case1 => rfl
  | case2 s ih | case3 s ih | case4 s ih => simp [escape, ih]
  | case5 s hfeed ih => simp [escape.eq_5 s hfeed, ih]
  | case6 c s hquote hfeed hreturnFeed hreturn ih =>
      simp [escape.eq_6 c s hquote hfeed hreturnFeed hreturn, List.count_cons, ih]

theorem count_quote_unescape (body : Text) : (unescape body).count '"' = body.count '"' := by
  induction body using unescape.induct with
  | case1 => rfl
  | case2 s ih | case3 s ih => simp [unescape, ih]
  | case4 c s hn hquote ih => simp [unescape.eq_4 c s hn hquote, List.count_cons, ih]

theorem length_le_length_escape (name : Text) : name.length ≤ (escape name).length := by
  induction name using escape.induct with
  | case1 => exact Nat.le_refl 0
  | case2 s ih | case3 s ih | case4 s ih =>
      simp only [escape, List.length_cons]
      omega
  | case5 s hfeed ih =>
      simp only [escape.eq_5 s hfeed, List.length_cons]
      omega
  | case6 c s hquote hfeed hreturnFeed hreturn ih =>
      simp only [escape.eq_6 c s hquote hfeed hreturnFeed hreturn, List.length_cons]
      omega

theorem mem_escape_bracket (name : Text) : '[' ∈ escape name ↔ '[' ∈ name := by
  induction name using escape.induct with
  | case1 => rfl
  | case2 s ih | case3 s ih | case4 s ih => simp [escape, ih]
  | case5 s hfeed ih => simp [escape.eq_5 s hfeed, ih]
  | case6 c s hquote hfeed hreturnFeed hreturn ih =>
      simp [escape.eq_6 c s hquote hfeed hreturnFeed hreturn, ih]

/-- The two quotes around a name are the only ones that it does not itself hold. -/
theorem IsQuoted.count_quote {q : Text} (h : IsQuoted q) :
    q.count '"' = (decode q).count '"' + 2 := by
  obtain ⟨body, rfl, hdecode⟩ := h.exists_body
  rw [hdecode, count_quote_unescape]
  simp

theorem count_quote_encode {name : Text} (h : needsQuoting name = true) :
    (encode name).count '"' = name.count '"' + 2 := by
  rw [encode, if_pos h]
  simp [count_quote_escape]

theorem getLast?_encode {name : Text} (h : needsQuoting name = true) :
    (encode name).getLast? = some '"' := by
  rw [encode, if_pos h, ← List.cons_append, List.getLast?_append]
  rfl

theorem mem_encode_bracket (name : Text) : '[' ∈ encode name ↔ '[' ∈ name := by
  unfold encode
  split
  · simp [mem_escape_bracket]
  · rfl

/-- Blanks behind a name do not make up for the quotes. -/
theorem append_ne_encode {name blanks : Text} (h : needsQuoting name = true)
    (hblanks : blanks.isAllBlank = true) (t : Text) : name ++ blanks ≠ encode name ++ t := by
  have hlength : name.length < (encode name).length := by
    have := length_le_length_escape name
    rw [encode, if_pos h]
    simp only [List.length_cons, List.length_append, List.length_nil]
    omega
  intro heq
  rcases List.append_eq_append_iff.mp heq with ⟨m, hsplit, hm⟩ | ⟨m, hsplit, -⟩
  · -- the closing quote would be one of the blanks
    have hne : m ≠ [] := by
      rintro rfl
      rw [hsplit, List.append_nil] at hlength
      exact Nat.lt_irrefl _ hlength
    have hlast := getLast?_encode h
    rw [hsplit, List.getLast?_append_of_ne_nil _ hne] at hlast
    have hmem : '"' ∈ blanks := by
      rw [hm]
      exact List.mem_append_left _ (List.mem_of_getLast? hlast)
    exact absurd (Text.isAllBlank_iff.mp hblanks '"' hmem) (by decide)
  · have hlonger := congrArg List.length hsplit
    rw [List.length_append] at hlonger
    omega

theorem last_encode (name : Text) : ∀ ch ∈ (encode name).getLast?, isBlank ch = false := by
  cases hquoting : needsQuoting name with
  | true =>
      rw [getLast?_encode hquoting]
      intro ch hch
      obtain rfl : '"' = ch := Option.some.inj hch
      rfl
  | false =>
      have hbare := isBare_iff.mp hquoting
      rw [hbare.encode_eq]
      exact hbare.last

theorem ne_nil_of_isAllBlank {name : Text} (h : name.isAllBlank = false) : name ≠ [] := by
  rintro rfl
  exact absurd h (by decide)

end Name

namespace Placement

/-- The written form of the name, with the text `before` in front of it and `after` behind it, is what
the reader takes for the name. -/
inductive ReadsBack (before name after : Text) : Prop
  | quoted (first : before = []) (closed : Name.IsQuoted (Name.encode name))
  | bare (notQuoted : Name.quotedLength? (before ++ (Name.encode name ++ after)) = none)
      (no_bracket : '[' ∉ Name.encode name)
      (blank : Text.isAllBlank (after.takeWhile (· != '[')) = true)

variable {before before' name written rest rest' after value value' : Text}

namespace Written

theorem before_blank (h : Written before written rest value) : before.isAllBlank = true := by
  cases h with
  | quoted => rfl
  | bare trims => exact trims.before_blank

/-- A text is read in one way. -/
theorem unique (h : Written before written rest value) {written' : Text}
    (h' : Written before' written' rest' value')
    (htext : before ++ (written ++ rest) = before' ++ (written' ++ rest')) :
    before = before' ∧ written = written' ∧ value = value' := by
  have hpass : Cursor.Passes ⟨0, before ++ (written ++ rest)⟩ (before ++ written)
      ⟨0 + (before ++ written).length, rest⟩ := ⟨(List.append_assoc ..).symm, rfl⟩
  have hpass' : Cursor.Passes ⟨0, before ++ (written ++ rest)⟩ (before' ++ written')
      ⟨0 + (before' ++ written').length, rest'⟩ := ⟨htext.trans (List.append_assoc ..).symm, rfl⟩
  have hread := h.nameAt_eq hpass rfl
  have hread' := h'.nameAt_eq hpass' rfl
  obtain ⟨⟨hstart, hstop⟩, hvalue⟩ : (before.length = before'.length ∧
      (before ++ written).length = (before' ++ written').length) ∧ value = value' := by
    simpa using hread.symm.trans hread'
  obtain ⟨rfl, hbehind⟩ := List.append_inj htext hstart
  simp only [List.length_append, Nat.add_left_cancel_iff] at hstop
  exact ⟨rfl, (List.append_inj hbehind hstop).1, hvalue⟩

/-- What is read starts where the written form does, if it is that form. -/
theorem before_eq (h : Written before' (Name.encode name) rest value)
    (hbefore : before.isAllBlank = true) (hblank : name.isAllBlank = false)
    (htext : before' ++ (Name.encode name ++ rest) = before ++ (Name.encode name ++ after)) :
    before' = before ∧ rest = after := by
  obtain ⟨rfl, hbehind⟩ := Text.append_inj_of_head (Text.isAllBlank_iff.mp h.before_blank)
    (Text.isAllBlank_iff.mp hbefore) (Name.head_encode_append hblank rest)
    (Name.head_encode_append hblank after) htext
  exact ⟨rfl, List.append_cancel_left hbehind⟩

end Written

/-- A name reads back exactly if its written form can stand between the two texts as the name of a placement. -/
theorem readsBack_iff_exists_written (hbefore : before.isAllBlank = true)
    (hblank : name.isAllBlank = false) :
    ReadsBack before name after ↔ ∃ value, Written before (Name.encode name) after value := by
  constructor
  · rintro (⟨rfl, hclosed⟩ | ⟨hnotQuoted, hno_bracket, hafter⟩)
    · exact ⟨_, .quoted hclosed⟩
    · have hsplit : after = after.takeWhile (· != '[') ++ after.dropWhile (· != '[') :=
        List.takeWhile_append_dropWhile.symm
      have htrims : Text.Trims before (Name.encode name) (after.takeWhile (· != '[')) := by
        refine ⟨hbefore, hafter, fun ch hch => ?_, Name.last_encode name, fun hnil => ?_⟩
        · exact Name.head_encode_append hblank [] ch (by rwa [List.append_nil])
        · exact absurd hnil (Name.encode_ne_nil (Name.ne_nil_of_isAllBlank hblank))
      rw [hsplit] at hnotQuoted ⊢
      refine ⟨_, .bare htrims hnotQuoted ?_ fun ch hch => ?_⟩
      · simp only [List.mem_append, not_or]
        refine ⟨⟨fun hmem => ?_, hno_bracket⟩, fun hmem => ?_⟩
        · exact absurd (Text.isAllBlank_iff.mp hbefore '[' hmem) (by decide)
        · exact absurd (List.mem_takeWhile_imp hmem) (by decide)
      · simpa using Text.head?_dropWhile ch hch
  · rintro ⟨value, hwritten⟩
    generalize hform : Name.encode name = form at hwritten
    cases hwritten with
    | quoted hquoted => exact .quoted rfl (hform ▸ hquoted)
    | @bare _ _ trailing tail htrims hnotQuoted hno_bracket hhead =>
        simp only [List.mem_append, not_or] at hno_bracket
        have htaken : (trailing ++ tail).takeWhile (· != '[') = trailing :=
          Text.takeWhile_append_of_head (Text.bne_of_not_mem hno_bracket.2)
            fun ch hch => by simp [hhead ch hch]
        refine .bare (hform ▸ hnotQuoted) (hform ▸ hno_bracket.1.2) ?_
        rw [htaken]
        exact htrims.after_blank

namespace Written

/-- The reader takes the characters that were written exactly if the name reads back. -/
theorem eq_encode_iff (h : Written before' written rest value) (hbefore : before.isAllBlank = true)
    (hblank : name.isAllBlank = false)
    (htext : before' ++ (written ++ rest) = before ++ (Name.encode name ++ after)) :
    written = Name.encode name ↔ ReadsBack before name after := by
  rw [readsBack_iff_exists_written hbefore hblank]
  constructor
  · rintro rfl
    obtain ⟨rfl, rfl⟩ := h.before_eq hbefore hblank htext
    exact ⟨value, h⟩
  · rintro ⟨value', hwritten⟩
    exact (h.unique hwritten htext).2.1

/-- A quoted name that is read bare is read with its quotes, or only up to a bracket in it. -/
theorem ne_of_bare {trailing tail : Text} (htrims : Text.Trims before' value trailing)
    (hno_bracket : '[' ∉ before' ++ value ++ trailing) (hhead : ∀ ch ∈ tail.head?, ch = '[')
    (hbefore : before.isAllBlank = true) (hblank : name.isAllBlank = false)
    (hquoting : Name.needsQuoting name = true)
    (htext : before' ++ (value ++ (trailing ++ tail)) = before ++ (Name.encode name ++ after)) :
    value ≠ name := by
  rintro rfl
  have hpassed : '[' ∉ before ++ Name.encode value ++ after.takeWhile (· != '[') := by
    simp only [List.mem_append, not_or] at hno_bracket ⊢
    refine ⟨⟨fun hmem => ?_, fun hmem => ?_⟩, fun hmem => ?_⟩
    · exact absurd (Text.isAllBlank_iff.mp hbefore '[' hmem) (by decide)
    · exact hno_bracket.1.2 ((Name.mem_encode_bracket value).mp hmem)
    · exact absurd (List.mem_takeWhile_imp hmem) (by decide)
  -- both sides are compared up to the first bracket, and from the first character that is not blank
  have hcut : before' ++ value ++ trailing ++ tail = before ++ Name.encode value
      ++ after.takeWhile (· != '[') ++ after.dropWhile (· != '[') := by
    simpa only [List.append_assoc, List.takeWhile_append_dropWhile] using htext
  have hstretch := (Text.append_inj_of_head (Text.bne_of_not_mem hno_bracket)
    (Text.bne_of_not_mem hpassed) (fun ch hch => by simp [hhead ch hch]) Text.head?_dropWhile hcut).1
  rw [List.append_assoc, List.append_assoc] at hstretch
  have hname : ∀ ch ∈ (value ++ trailing).head?, isBlank ch = false := by
    rw [List.head?_append_of_ne_nil _ (Name.ne_nil_of_isAllBlank hblank)]
    exact htrims.head
  obtain ⟨-, hbehind⟩ := Text.append_inj_of_head (Text.isAllBlank_iff.mp htrims.before_blank)
    (Text.isAllBlank_iff.mp hbefore) hname (Name.head_encode_append hblank _) hstretch
  exact Name.append_ne_encode hquoting htrims.after_blank _ hbehind

/-- A quoted name stands where the blanks in front of it end. -/
theorem before_eq_nil {q s : Text} (hq : Name.IsQuoted q) (hbefore : before.isAllBlank = true)
    (htext : q ++ rest = before ++ s) : before = [] := by
  cases before with
  | nil => rfl
  | cons ch before =>
      obtain rfl : ch = '"' := by simpa [htext] using hq.head?_append rest
      exact absurd (Text.isAllBlank_iff.mp hbefore '"' List.mem_cons_self) (by decide)

/-- The name is not read from other characters than the written form. -/
theorem eq_encode_of_value (h : Written before' written rest value) (hvalue : value = name)
    (hbefore : before.isAllBlank = true) (hblank : name.isAllBlank = false)
    (htext : before' ++ (written ++ rest) = before ++ (Name.encode name ++ after)) :
    written = Name.encode name := by
  cases h with
  | quoted hquoted =>
      obtain rfl := before_eq_nil hquoted hbefore htext
      cases hquoting : Name.needsQuoting name with
      | true =>
          refine Text.eq_of_count_eq htext hquoted.getLast? (Name.getLast?_encode hquoting) ?_
          rw [hquoted.count_quote, Name.count_quote_encode hquoting, hvalue]
      | false =>
          -- a bare name does not start with a quote
          have hbare := Name.isBare_iff.mp hquoting
          obtain ⟨ch, name, rfl⟩ := List.exists_cons_of_ne_nil (Name.ne_nil_of_isAllBlank hblank)
          have hhead : (Name.encode (ch :: name) ++ after).head? = some '"' :=
            htext ▸ hquoted.head?_append rest
          rw [hbare.encode_eq] at hhead
          obtain rfl : ch = '"' := by simpa using hhead
          exact absurd List.mem_cons_self (hbare.not_mem rfl)
  | bare htrims hnotQuoted hno_bracket hhead =>
      cases hquoting : Name.needsQuoting name with
      | true =>
          exact absurd hvalue (ne_of_bare htrims hno_bracket hhead hbefore hblank hquoting htext)
      | false => rw [hvalue, (Name.isBare_iff.mp hquoting).encode_eq]

end Written

/-- A name without backslashes reads back where the name is looked for, if only blanks follow it up to the
coordinates or the end of the line. -/
theorem readsBack_of_blank (hname : '\\' ∉ name) (hblank : name.isAllBlank = false)
    (hafter : Text.isAllBlank (after.takeWhile (· != '[')) = true) : ReadsBack [] name after := by
  cases hquoting : Name.needsQuoting name with
  | true => exact .quoted rfl (Name.isQuoted_encode hname hquoting).1
  | false =>
      have hbare := Name.isBare_iff.mp hquoting
      refine .bare (Name.quotedLength?_eq_none_of_head? fun hquote => ?_) ?_ hafter
      · rw [hbare.encode_eq, List.nil_append,
          List.head?_append_of_ne_nil _ (Name.ne_nil_of_isAllBlank hblank)] at hquote
        exact hbare.not_mem rfl (List.mem_of_head? hquote)
      · rw [hbare.encode_eq]
        exact hbare.not_mem rfl

end Placement

end WardleyMap
