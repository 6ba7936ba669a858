import WardleyMap.Proofs.Statement.Exchange
import WardleyMap.Proofs.Statement.WrittenName

/-!
# A quoted name behind an arrow

The label is looked for before the names are, and that search takes a quoted name for one token only where a
token can start. Behind an arrow with a gap it can. Glued to the arrow the name is a string of words,
and what they hold is found: a label inside the quotes cuts the name off, and a closing quote with a
blank before it opens a token that hides the label of the line.

`Evolution.QuotedLayout.Holds` is the condition under which neither happens. It decides the reading of the
line: `ofLine?_of_holds` is one direction, and the two ways in which it can fail are the other.
-/

namespace WardleyMap

open Text

namespace Name

variable {name : Text}

theorem getLast?_cons_of_eq {c d : Char} {s : Text} (h : s.getLast? = some d) :
    (c :: s).getLast? = some d := by
  rw [List.getLast?_cons, h, Option.getD_some]

/-- A quote in an escaped name stands behind a backslash. -/
theorem getLast?_of_escape {a b : Text} (h : escape name = a ++ '"' :: b) :
    a.getLast? = some '\\' := by
  have hpair : ∀ {d : Char} {s a : Text}, (∀ a, s = a ++ '"' :: b → a.getLast? = some '\\') →
      '\\' :: d :: s = a ++ '"' :: b → a.getLast? = some '\\' := by
    intro d s a ih heq
    match a with
    | [] => exact absurd (List.cons.inj heq).1 (by decide)
    | [x] =>
        obtain ⟨rfl, -⟩ := List.cons.inj heq
        rfl
    | x :: y :: a =>
        exact getLast?_cons_of_eq (getLast?_cons_of_eq (ih a (List.cons.inj (List.cons.inj heq).2).2))
  induction name using escape.induct generalizing a with
  | case1 => simp [escape] at h
  | case2 s ih | case3 s ih | case4 s ih => exact hpair (fun a => @ih a) h
  | case5 s hfeed ih =>
      rw [escape.eq_5 s hfeed] at h
      exact hpair (fun a => @ih a) h
  | case6 c s hquote hfeed hreturnFeed hreturn ih =>
      rw [escape.eq_6 c s hquote hfeed hreturnFeed hreturn] at h
      cases a with
      | nil => exact absurd (List.cons.inj h).1 hquote
      | cons x a => exact getLast?_cons_of_eq (ih (List.cons.inj h).2)

theorem escape_ne_nil (h : name ≠ []) : escape name ≠ [] := by
  cases name using escape.fun_cases with
  | case1 => exact absurd rfl h
  | case2 | case3 | case4 => simp [escape]
  | case5 s hfeed => simp [escape.eq_5 s hfeed]
  | case6 c s hquote hfeed hreturnFeed hreturn =>
      simp [escape.eq_6 c s hquote hfeed hreturnFeed hreturn]

end Name

/-! ### Words that hold a quote -/

theorem NoLabel.cons {c : Char} {s : Text} (hc : c ≠ 'l') (h : NoLabel s) : NoLabel (c :: s) := by
  intro a b heq ha hb
  cases a with
  | nil =>
      obtain rfl : c :: s = b := heq
      exact hc (by simpa using hb.head?)
  | cons d a =>
      obtain ⟨rfl, rfl⟩ := List.cons.inj heq
      exact h a b rfl (EndsBlank.of_append (s := [c]) ha) hb

/-- A quote is foreign to labels, so none runs across it. -/
theorem NoLabel.append_quote {s t : Text} (hs : NoLabel s) (ht : NoLabel ('"' :: t)) :
    NoLabel (s ++ '"' :: t) := by
  refine hs.append ht ?_
  simp [isLabelChar, isBracketChar, isSpace, Decimal.isNumeral]

theorem StartsLabel.of_append_quote {s t : Text} (h : StartsLabel (s ++ '"' :: t)) : StartsLabel s := by
  refine h.of_append ?_
  simp [isLabelChar, isBracketChar, isSpace, Decimal.isNumeral]

theorem not_endsBlank_append {s : Text} {c : Char} (hc : isBlank c = false) : ¬EndsBlank (s ++ [c]) := by
  intro h
  have := h c (by simp)
  rw [hc] at this
  exact absurd this (by decide)

/-- A name that is glued to what precedes it has no word that opens with a quote, up to its end. -/
theorem noQuotedWord_glued {front : Text} (hquote : '"' ∉ front) (hends : ¬EndsBlank front) (name : Text) :
    NoQuotedWord (front ++ '"' :: Name.escape name) := by
  refine NoQuotedWord.append (.of_not_mem hquote) fun a b heq => ?_
  cases a with
  | nil => rwa [List.append_nil]
  | cons c a =>
      have hlast := Name.getLast?_of_escape (List.cons.inj heq).2
      have hlast' : (front ++ c :: a).getLast? = some '\\' := by
        rw [List.getLast?_append, Name.getLast?_cons_of_eq hlast, Option.some_or]
      exact fun hblank => absurd (hblank _ hlast') (by decide)

theorem Cursor.label?_unclosed {s : Text} (h : '"' ∉ s) (col : Nat) :
    (⟨col, '"' :: s⟩ : Cursor).label? = none := by
  refine label?_of_open rfl ?_ col
  rw [Name.quotedLength?, Option.map_eq_none_iff]
  by_contra hsome
  obtain ⟨n, hn⟩ := Option.ne_none_iff_exists'.mp hsome
  obtain ⟨body, rest, rfl, -⟩ := Name.exists_closed hn
  simp at h

namespace Evolution

/-- The parts of an `evolve` line whose second name stands between quotes: the spaces around the keyword,
what precedes the second name, that name, the spaces behind it, the number, what follows the number, and
the rest of the line from the label on. -/
structure QuotedLayout where
  lead : Text
  gap : Text
  front : Front
  name : Text
  after : Text
  literal : Text
  trailing : Text
  tail : Text

namespace QuotedLayout

def opening (l : QuotedLayout) : Text :=
  l.lead ++ (Kind.keyword .evolve ++ l.gap)

def behind (l : QuotedLayout) : Text :=
  l.after ++ (l.literal ++ l.trailing)

def body (l : QuotedLayout) : Text :=
  l.front.text ++ (Name.encode l.name ++ l.behind)

def line (l : QuotedLayout) : Text :=
  l.opening ++ (l.body ++ l.tail)

def nameStart (l : QuotedLayout) : Nat :=
  l.opening.length + l.front.text.length

def nameStop (l : QuotedLayout) : Nat :=
  l.nameStart + (Name.encode l.name).length

def literalStart (l : QuotedLayout) : Nat :=
  l.nameStop + l.after.length

def evolution (l : QuotedLayout) (label : Option LabelClause) : Evolution :=
  ⟨l.front.token l.opening.length,
    some ⟨l.front.arrow l.opening.length, ⟨⟨l.nameStart, l.nameStop⟩, l.name⟩⟩,
    some ⟨⟨l.literalStart, l.literalStart + l.literal.length⟩, Decimal.value l.literal⟩, label⟩

/-- The second name is taken for one token, or for words that neither hold a label nor hide one. -/
def Holds (l : QuotedLayout) : Prop :=
  l.front.gap ≠ [] ∨
    NoLabel (Name.encode l.name) ∧ (l.tail = [] ∨ ¬EndsBlank (Name.escape l.name))

structure Reads (l : QuotedLayout) : Prop where
  isSpace_lead : ∀ ch ∈ l.lead, isSpace ch = true
  isSpace_gap : ∀ ch ∈ l.gap, isSpace ch = true
  head : ∀ ch ∈ l.front.text.head?, isSpace ch = false
  boundary : l.gap ≠ [] ∨ ∀ ch ∈ l.front.text.head?, isBlank ch = true ∨ ch = '['
  front : l.front.Reads
  noLabel_front : NoLabel l.front.text
  needsQuoting : Name.needsQuoting l.name = true
  no_backslash : '\\' ∉ l.name
  no_return : '\r' ∉ l.name
  isSpace_after : ∀ ch ∈ l.after, isSpace ch = true
  isLiteral : Decimal.isLiteral l.literal = true
  startsBlank : StartsBlank l.trailing
  noLabel_behind : NoLabel l.behind
  no_quote : '"' ∉ l.behind ++ l.tail
  tail : l.tail = [] ∨ EndsBlank l.behind ∧ StartsLabel l.tail

variable {l : QuotedLayout}

theorem Reads.encode_eq (h : l.Reads) :
    Name.encode l.name = '"' :: (Name.escape l.name ++ ['"']) := by
  rw [Name.encode, if_pos h.needsQuoting]

theorem Reads.isQuoted (h : l.Reads) :
    Name.IsQuoted (Name.encode l.name) ∧ Name.decode (Name.encode l.name) = l.name := by
  have := Name.isQuoted_encode h.no_backslash h.needsQuoting
  rwa [Name.unifyBreaks_of_not_mem h.no_return] at this

theorem Reads.no_quote_front (h : l.Reads) : '"' ∉ l.front.text := by
  simp only [Front.text, List.mem_append, not_or]
  exact ⟨h.front.no_quote, by decide, fun hmem => absurd (h.front.isSpace_gap _ hmem) (by decide)⟩

theorem front_ne_nil (l : QuotedLayout) : l.front.text ≠ [] := by
  simp [Front.text, Name.arrow]

theorem Reads.behind_ne_nil (h : l.Reads) : l.behind ≠ [] :=
  List.append_ne_nil_of_right_ne_nil _
    (List.append_ne_nil_of_left_ne_nil (Decimal.literal_ne_nil h.isLiteral) _)

theorem Reads.body_append_tail (h : l.Reads) : l.body ++ l.tail
    = (l.front.text ++ '"' :: Name.escape l.name) ++ '"' :: (l.behind ++ l.tail) := by
  rw [body, h.encode_eq]
  simp only [List.append_assoc, List.cons_append, List.nil_append]

theorem body_append (l : QuotedLayout) (rest : Text) :
    l.body ++ rest = l.front.text ++ (Name.encode l.name ++ (l.behind ++ rest)) := by
  simp only [body, List.append_assoc]

theorem Reads.head_encode_append (h : l.Reads) (rest : Text) :
    ∀ ch ∈ (Name.encode l.name ++ rest).head?, isSpace ch = false := by
  intro ch hch
  rw [List.head?_append, h.isQuoted.1.head?] at hch
  obtain rfl := Option.some.inj hch
  rfl

theorem Reads.endsBlank_front (h : l.Reads) (hgap : l.front.gap ≠ []) : EndsBlank l.front.text := by
  rw [Front.text, ← List.append_assoc, endsBlank_append hgap]
  exact fun ch hch => isBlank_of_isSpace (h.front.isSpace_gap ch (List.mem_of_getLast? hch))

theorem not_endsBlank_front (hgap : l.front.gap = []) : ¬EndsBlank l.front.text := by
  have hsplit : l.front.text = (l.front.upToArrow ++ ['-']) ++ ['>'] := by
    rw [Front.text, hgap]
    simp [Name.arrow]
  rw [hsplit]
  exact not_endsBlank_append (by decide)

/-! ### The label -/

theorem Reads.label?_of_gap (h : l.Reads) (hgap : l.front.gap ≠ []) (col : Nat) :
    (⟨col, l.body ++ l.tail⟩ : Cursor).label? = (⟨col + l.body.length, l.tail⟩ : Cursor).label? := by
  have hquote : '"' ∉ l.behind := fun hmem => h.no_quote (List.mem_append_left _ hmem)
  have hfront : (⟨col, l.front.text ++ (Name.encode l.name ++ (l.behind ++ l.tail))⟩ : Cursor).label?
      = (⟨col + l.front.text.length, Name.encode l.name ++ (l.behind ++ l.tail)⟩ : Cursor).label? := by
    refine Cursor.label?_cut (.of_not_mem h.no_quote_front) (.inl (h.endsBlank_front hgap)) ?_ col
    rintro a b hab - ha hstarts
    rw [h.encode_eq] at hstarts
    exact h.noLabel_front a b hab ha hstarts.of_append_quote
  rw [body_append, hfront, label?_quoted h.isQuoted.1,
    Cursor.label?_append (.of_not_mem hquote) h.noLabel_behind h.tail]
  simp only [body, List.length_append, Nat.add_assoc]

theorem Reads.name_ne_nil (h : l.Reads) : l.name ≠ [] := by
  intro hnil
  have := h.needsQuoting
  rw [hnil] at this
  exact absurd this (by decide)

theorem Reads.noQuotedWord_upToClose (h : l.Reads) (hgap : l.front.gap = []) :
    NoQuotedWord (l.front.text ++ '"' :: Name.escape l.name) :=
  noQuotedWord_glued h.no_quote_front (not_endsBlank_front hgap) l.name

theorem Reads.noLabel_upToClose (h : l.Reads) (hno : NoLabel (Name.encode l.name)) :
    NoLabel (l.front.text ++ '"' :: Name.escape l.name) := by
  rw [h.encode_eq, ← List.cons_append] at hno
  exact h.noLabel_front.append_quote hno.left

theorem Reads.endsBlank_upToClose_iff (h : l.Reads) :
    EndsBlank (l.front.text ++ '"' :: Name.escape l.name) ↔ EndsBlank (Name.escape l.name) := by
  rw [← List.singleton_append, ← List.append_assoc]
  exact endsBlank_append (Name.escape_ne_nil h.name_ne_nil)

/-- A closing quote that starts a token hides the label. -/
theorem Reads.label?_of_endsBlank (h : l.Reads) (hgap : l.front.gap = [])
    (hno : NoLabel (Name.encode l.name)) (hends : EndsBlank (Name.escape l.name)) (col : Nat) :
    (⟨col, l.body ++ l.tail⟩ : Cursor).label? = none := by
  have hcut := Cursor.label?_cut (t := '"' :: (l.behind ++ l.tail)) (h.noQuotedWord_upToClose hgap)
    (.inl (h.endsBlank_upToClose_iff.mpr hends)) ?_ col
  · rw [h.body_append_tail, hcut, Cursor.label?_unclosed h.no_quote]
  · rintro a b hab - ha hstarts
    exact h.noLabel_upToClose hno a b hab ha hstarts.of_append_quote

/-- Right behind the arrow a quoted name is cut at its blanks; without a label in it, the label behind it is
found all the same. -/
theorem Reads.label?_of_glued (h : l.Reads) (hgap : l.front.gap = [])
    (hno : NoLabel (Name.encode l.name)) (hends : ¬EndsBlank (Name.escape l.name)) (col : Nat) :
    (⟨col, l.body ++ l.tail⟩ : Cursor).label? = (⟨col + l.body.length, l.tail⟩ : Cursor).label? := by
  have hbody : l.body = (l.front.text ++ '"' :: Name.escape l.name) ++ '"' :: l.behind := by
    rw [body, h.encode_eq]
    simp only [List.append_assoc, List.cons_append, List.nil_append]
  have hquoted : NoQuotedWord l.body := by
    rw [hbody]
    refine (h.noQuotedWord_upToClose hgap).append fun a b heq => ?_
    cases a with
    | nil =>
        rw [List.append_nil]
        exact fun hblank => hends (h.endsBlank_upToClose_iff.mp hblank)
    | cons c a =>
        have hmem : '"' ∈ l.behind ++ l.tail := by
          rw [(List.cons.inj heq).2]
          simp
        exact absurd hmem h.no_quote
  have hnoLabel : NoLabel l.body := by
    rw [hbody]
    exact (h.noLabel_upToClose hno).append_quote (h.noLabel_behind.cons (by decide))
  refine Cursor.label?_append hquoted hnoLabel (h.tail.imp_right fun htail => ⟨?_, htail.2⟩) col
  rw [body, ← List.append_assoc]
  exact (endsBlank_append h.behind_ne_nil).mpr htail.1

theorem Reads.label?_of_holds (h : l.Reads) (hholds : l.Holds) (col : Nat) :
    (⟨col, l.body ++ l.tail⟩ : Cursor).label? = (⟨col + l.body.length, l.tail⟩ : Cursor).label? := by
  by_cases hgap : l.front.gap = []
  · obtain ⟨hno, hseam⟩ := hholds.resolve_left (not_not_intro hgap)
    by_cases hends : EndsBlank (Name.escape l.name)
    · have htail := hseam.resolve_right (not_not_intro hends)
      rw [h.label?_of_endsBlank hgap hno hends, htail, Cursor.label?_nil]
    · exact h.label?_of_glued hgap hno hends col
  · exact h.label?_of_gap hgap col

/-! ### The names and the number -/

theorem Reads.ofLine?_eq_ofCursor (h : l.Reads) :
    ofLine? l.line = some (ofCursor ⟨l.opening.length, l.body ++ l.tail⟩) := by
  have hhead : (l.body ++ l.tail).head? = l.front.text.head? := by
    obtain ⟨c, t, ht⟩ := List.exists_cons_of_ne_nil l.front_ne_nil
    rw [body, ht]
    rfl
  have hopens : Kind.Opens .evolve l.line l.lead l.gap ⟨l.opening.length, l.body ++ l.tail⟩ := by
    refine ⟨Cursor.passes_ofLine_iff.mpr ⟨rfl, rfl⟩, h.isSpace_lead, h.isSpace_gap, ?_, ?_⟩
    · exact fun ch hch => h.head ch (hhead ▸ hch)
    · exact h.boundary.imp_right fun hboundary ch hch => hboundary ch (hhead ▸ hch)
  exact hopens.map_open? ofCursor

/-- Whatever follows the arrow, the first name is read, and then the second one from there on. -/
theorem Reads.ofBody_front (h : l.Reads) {rest : Text} (hrest : ∀ ch ∈ rest.head?, isSpace ch = false)
    (col : Nat) (label : Option LabelClause) :
    let head := Head.ofOverride ⟨col + l.front.text.length, rest⟩
    ofBody ⟨col, l.front.text ++ rest⟩ label = ⟨l.front.token col,
      some ⟨l.front.arrow col, head.name⟩, head.maturity <|> maturityAt head.rest, label⟩ := by
  have hread := ofBody_of_arrow [] (h.front.head_eq col rest) rfl (by simp)
    h.front.isSpace_gap hrest label
  have hstart : col + l.front.upToArrow.length + 2 + l.front.gap.length
      = col + l.front.text.length := by
    simp only [Front.text, Name.arrow, List.length_append, List.length_cons, List.length_nil]
    omega
  simp only [List.length_nil, Nat.add_zero, hstart] at hread
  exact hread

theorem Reads.ofBody_body (h : l.Reads) (label : Option LabelClause) :
    ofBody ⟨l.opening.length, l.body⟩ label = l.evolution label := by
  obtain ⟨hquoted, hdecode⟩ := h.isQuoted
  rw [body, h.ofBody_front (h.head_encode_append l.behind), Head.ofOverride_quoted hquoted]
  dsimp only
  rw [hdecode, behind, maturityAt_of_literal h.isSpace_after h.isLiteral h.startsBlank]
  rfl

/-- If the quotes hold, then the line is read as it is laid out. -/
theorem Reads.ofLine?_of_holds (h : l.Reads) (hholds : l.Holds) : ofLine? l.line
    = some (l.evolution (⟨(l.opening ++ l.body).length, l.tail⟩ : Cursor).label?) := by
  rw [h.ofLine?_eq_ofCursor, ofCursor_of_label? (h.label?_of_holds hholds _)
    (h.tail.imp_right And.right), h.ofBody_body, List.length_append]

/-! ### Where the quotes do not hold -/

theorem quotedLength?_eq_none_of_append {q rest : Text} (h : Name.IsQuoted (q ++ rest)) (hrest : rest ≠ []) :
    Name.quotedLength? q = none := by
  by_contra hsome
  obtain ⟨n, hn⟩ := Option.ne_none_iff_exists'.mp hsome
  obtain ⟨closed, more, rfl, -, hclosed⟩ := Name.exists_isQuoted hn
  have hlength := hclosed.quotedLength?_append (more ++ rest)
  rw [← List.append_assoc, h] at hlength
  have hpos := List.length_pos_iff.mpr hrest
  have := Option.some.inj hlength
  simp only [List.length_append] at this
  omega

/-- A name is no part of its own quoted form that lacks a letter at the end: if it started with a quote,
the quoted form would start with a quote and a backslash. -/
theorem not_prefix_of_escape {name q rest : Text} (hname : '\\' ∉ name) (hne : name ≠ [])
    (hsplit : Name.escape name = q ++ rest) (hrest : 'l' ∈ rest) : ¬name <+: '"' :: q := by
  rintro ⟨more, hmore⟩
  obtain ⟨c, value, rfl⟩ := List.exists_cons_of_ne_nil hne
  obtain ⟨rfl, rfl⟩ := List.cons.inj hmore
  have hescape : '\\' :: '"' :: Name.escape value = (value ++ more) ++ rest := hsplit
  cases value with
  | nil =>
      have hmem : 'l' ∈ '\\' :: '"' :: Name.escape [] := by
        rw [hescape]
        exact List.mem_append_right _ hrest
      exact absurd hmem (by decide)
  | cons d value =>
      obtain rfl : '\\' = d := (List.cons.inj hescape).1
      exact hname (by simp)

theorem bareName_prefix (q : Text) (col stop : Nat) :
    ((⟨col, '"' :: q⟩ : Cursor).bareName stop).value <+: '"' :: q := by
  obtain ⟨before, value, after, htaken, htrims, hbare⟩ :=
    Cursor.exists_bareName ⟨col, '"' :: q⟩ stop
  rw [hbare]
  have hprefix : before ++ (value ++ after) <+: '"' :: q := by
    rw [← List.append_assoc, ← htaken]
    exact List.take_prefix _ _
  cases before with
  | nil => exact (List.prefix_append value after).trans hprefix
  | cons c before =>
      obtain ⟨rest, hrest⟩ := hprefix
      obtain rfl : c = '"' := (List.cons.inj hrest).1
      exact absurd (isAllBlank_iff.mp htrims.before_blank _ List.mem_cons_self) (by decide)

/-- It is read as a bare name then, which still has the opening quote. -/
theorem value_ofOverride_ne {name q rest : Text} (hname : '\\' ∉ name) (hne : name ≠ [])
    (hquoted : Name.IsQuoted ('"' :: (Name.escape name ++ ['"'])))
    (hsplit : Name.escape name = q ++ rest) (hrest : 'l' ∈ rest) (col : Nat) :
    (Head.ofOverride ⟨col, '"' :: q⟩).name.value ≠ name := by
  have hopen : (⟨col, '"' :: q⟩ : Cursor).quotedName? = none := by
    rw [hsplit, List.append_assoc, ← List.cons_append] at hquoted
    exact Cursor.quotedName?_eq_none_iff.mpr (quotedLength?_eq_none_of_append hquoted (by simp))
  obtain ⟨stop, hstop⟩ : ∃ stop, (Head.ofOverride ⟨col, '"' :: q⟩).name
      = (⟨col, '"' :: q⟩ : Cursor).bareName stop := by
    simp only [Head.ofOverride, hopen, Head.bare]
    cases (⟨col, '"' :: q⟩ : Cursor).lastNumber? with
    | none => exact ⟨_, rfl⟩
    | some number => exact ⟨_, rfl⟩
  intro hvalue
  refine not_prefix_of_escape hname hne hsplit hrest ?_
  rw [← hvalue, hstop]
  exact bareName_prefix q col stop

/-- If the front and the open name together hold no label, the written name holds none. -/
theorem Reads.noLabel_encode (h : l.Reads)
    (hno : NoLabel (l.front.text ++ '"' :: Name.escape l.name)) : NoLabel (Name.encode l.name) := by
  have hname : NoLabel ('"' :: Name.escape l.name) := by
    intro a b heq ha hb
    by_cases hnil : a = []
    · subst hnil
      have hhead := hb.head?
      rw [← List.nil_append b, ← heq] at hhead
      exact absurd hhead (by simp)
    · refine hno (l.front.text ++ a) b ?_ ((endsBlank_append hnil).mpr ha) hb
      rw [heq, List.append_assoc]
  rw [h.encode_eq]
  exact hname.append_quote (noLabel_of_not_mem (by decide))

/-- A label inside the quotes is found, and cuts the line off in the second name. -/
theorem Reads.exists_cut (h : l.Reads) (hgap : l.front.gap = [])
    (hlabel : ¬NoLabel (Name.encode l.name)) : ∃ q rest label, Name.escape l.name = q ++ rest ∧
      'l' ∈ rest ∧ ofLine? l.line = some (ofBody ⟨l.opening.length, l.front.text ++ '"' :: q⟩ label) := by
  obtain ⟨before, rest, hsplit, hbefore, hrest⟩ :=
    exists_noLabel (l.front.text ++ '"' :: Name.escape l.name)
  rcases hrest with rfl | ⟨hends, hstarts⟩
  · rw [List.append_nil] at hsplit
    exact absurd (h.noLabel_encode (hsplit ▸ hbefore)) hlabel
  · have hquoted : NoQuotedWord before := by
      have := h.noQuotedWord_upToClose hgap
      rw [hsplit] at this
      exact this.left
    let rest' : Text := rest ++ '"' :: (l.behind ++ l.tail)
    have hstarts' : StartsLabel rest' := hstarts.append _
    have hlabel? := Cursor.label?_append hquoted hbefore (.inr ⟨hends, hstarts'⟩) l.opening.length
    have hread := h.ofLine?_eq_ofCursor
    rw [h.body_append_tail, hsplit, List.append_assoc,
      ofCursor_of_label? hlabel? (.inr hstarts')] at hread
    rcases List.append_eq_append_iff.mp hsplit with ⟨m, rfl, hname⟩ | ⟨m, hfront, rfl⟩
    · cases m with
      | nil =>
          rw [List.append_nil] at hends
          exact absurd hends (not_endsBlank_front hgap)
      | cons c q =>
          obtain ⟨rfl, hescape⟩ := List.cons.inj hname
          exact ⟨q, rest, _, hescape, List.mem_of_head? hstarts.head?, hread⟩
    · exact absurd hstarts.of_append_quote (h.noLabel_front before m hfront hends)

theorem ofCursor_of_none {c : Cursor} (h : c.label? = none) : ofCursor c = ofBody c none := by
  rw [ofCursor, h]

/-- If the quotes do not hold, then another second name is read, or no label. -/
theorem Reads.exists_of_not_holds (h : l.Reads) (hnot : ¬l.Holds) : ∃ e, ofLine? l.line = some e ∧
    e.name = l.front.token l.opening.length ∧
    (e.override.map (·.name.value) ≠ some l.name ∨ l.tail ≠ [] ∧ e.label = none) := by
  simp only [Holds, not_or, not_and, not_not] at hnot
  obtain ⟨hgap, hnot⟩ := hnot
  by_cases hno : NoLabel (Name.encode l.name)
  · obtain ⟨htail, hends⟩ := hnot hno
    refine ⟨_, h.ofLine?_eq_ofCursor, ?_⟩
    rw [ofCursor_of_none (h.label?_of_endsBlank hgap hno hends _), body_append,
      h.ofBody_front (h.head_encode_append (l.behind ++ l.tail))]
    exact ⟨rfl, .inr ⟨htail, rfl⟩⟩
  · obtain ⟨q, rest, label, hsplit, hrest, hread⟩ := h.exists_cut hgap hno
    have hquoted := h.isQuoted.1
    rw [h.encode_eq] at hquoted
    refine ⟨_, hread, ?_⟩
    rw [h.ofBody_front (by simp; decide)]
    refine ⟨rfl, .inl ?_⟩
    simpa using value_ofOverride_ne h.no_backslash h.name_ne_nil hquoted hsplit hrest _

end QuotedLayout

end Evolution

end WardleyMap
