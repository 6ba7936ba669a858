import WardleyMap.Proofs.Statement.Evolution
import WardleyMap.Proofs.Statement.Placement

/-!
# The line of an evolved component

`Evolution.Layout` puts the parts of an `evolve` line together with its opening and its label. Every line
without quotes has such a layout, and a line with a layout is read as the layout says. The parts may
be changed freely otherwise: all that ties them to one another is that no arrow and no label may
start before the place where the next part stands.
-/

namespace WardleyMap

open Text

namespace Evolution

theorem not_mem_frontText {front : Option Front} {rest : Text} (h : Leads front rest) :
    '"' ∉ frontText front := by
  cases front with
  | none => exact List.not_mem_nil
  | some f =>
      intro hmem
      simp only [frontText, Option.map_some, Option.getD_some, Front.text, List.mem_append] at hmem
      rcases hmem with hmem | hmem | hmem
      · exact h.1.no_quote hmem
      · exact absurd hmem (by decide)
      · exact absurd (h.1.isSpace_gap _ hmem) (by decide)

/-- Every text without quotes is a stretch, with a front where it holds an arrow. -/
theorem exists_parts {t : Text} (hquote : '"' ∉ t) : ∃ front s,
    Leads front s.text ∧ Stretch.Reads s ∧ frontText front ++ s.text = t := by
  cases harrow : t.find? Name.arrow with
  | none =>
      obtain ⟨s, hs, rfl⟩ := Stretch.exists_reads hquote
      exact ⟨none, s, Name.find?_arrow_eq_none_iff.mp harrow, hs, rfl⟩
  | some i =>
      obtain ⟨upToArrow, rest, rfl, -, hnone⟩ := Name.exists_noArrow harrow
      obtain ⟨before, after, hsplit, htrims⟩ := exists_trims upToArrow
      obtain ⟨gap, hgap, hpass, hhead⟩ := Cursor.exists_skipSpaces ⟨0, rest⟩
      have hrest : rest = gap ++ rest.dropWhile isSpace := by
        have := hpass.rest
        rwa [Cursor.skipSpaces_rest] at this
      rw [Cursor.skipSpaces_rest] at hhead
      simp only [List.mem_append, not_or] at hquote
      have hquoteRest : '"' ∉ rest.dropWhile isSpace :=
        fun hmem => hquote.2.2 ((List.dropWhile_sublist _).subset hmem)
      obtain ⟨s, hs, htext⟩ := Stretch.exists_reads hquoteRest
      have hup : Front.upToArrow ⟨before, upToArrow.trim, after, gap⟩ = upToArrow := by
        conv_rhs => rw [hsplit]
        simp only [Front.upToArrow, List.append_assoc]
      refine ⟨some ⟨before, upToArrow.trim, after, gap⟩, s, ⟨⟨?_, htrims, ?_, hgap⟩, ?_⟩, hs, ?_⟩
      · rw [hup]
        exact hquote.1
      · rw [hup]
        exact hnone
      · rw [htext]
        exact hhead
      · rw [htext]
        conv_rhs => rw [hrest]
        simp only [frontText, Option.map_some, Option.getD_some, Front.text, hup, List.append_assoc]

/-- What the names and the maturity are read from ends where the first label starts. -/
theorem ofCursor_of_label? {col : Nat} {body tail : Text}
    (hlabel : (⟨col, body ++ tail⟩ : Cursor).label? = (⟨col + body.length, tail⟩ : Cursor).label?)
    (htail : tail = [] ∨ StartsLabel tail) :
    ofCursor ⟨col, body ++ tail⟩
      = ofBody ⟨col, body⟩ (⟨col + body.length, tail⟩ : Cursor).label? := by
  unfold ofCursor
  rw [hlabel]
  rcases htail with rfl | ⟨gap, f, g, rest, hgap, rfl⟩
  · rw [Cursor.label?_nil, List.append_nil]
  · have hpass := Cursor.Passes.mk_append col body (Field.labelled gap [f, g] ++ rest)
    rw [Cursor.label?_labelled hgap]
    exact congrArg (ofBody · _) hpass.clip_eq

theorem ofCursor_eq {body tail : Text} (hquote : '"' ∉ body) (hbody : NoLabel body)
    (htail : tail = [] ∨ EndsBlank body ∧ StartsLabel tail) (col : Nat) :
    ofCursor ⟨col, body ++ tail⟩
      = ofBody ⟨col, body⟩ (⟨col + body.length, tail⟩ : Cursor).label? :=
  ofCursor_of_label? (Cursor.label?_append (.of_not_mem hquote) hbody htail col)
    (htail.imp_right And.right)

/-- The parts of an `evolve` line: the spaces around the keyword, the front and the stretch, and the rest
of the line from the label on. -/
structure Layout where
  lead : Text
  gap : Text
  front : Option Front
  stretch : Stretch
  tail : Text

namespace Layout

def opening (l : Layout) : Text :=
  l.lead ++ (Kind.keyword .evolve ++ l.gap)

def body (l : Layout) : Text :=
  frontText l.front ++ l.stretch.text

def line (l : Layout) : Text :=
  l.opening ++ (l.body ++ l.tail)

def upToName (l : Layout) : Text :=
  l.opening ++ (frontText l.front ++ l.stretch.before)

def upToNameEnd (l : Layout) : Text :=
  l.upToName ++ l.stretch.name

def upToLiteral (l : Layout) : Text :=
  l.upToNameEnd ++ l.stretch.after

def tailPlace (l : Layout) : Cursor :=
  ⟨l.opening.length + l.body.length, l.tail⟩

def evolution (l : Layout) : Evolution :=
  ofParts l.opening.length l.front l.stretch l.tailPlace.label?

structure Reads (l : Layout) : Prop where
  isSpace_lead : ∀ ch ∈ l.lead, isSpace ch = true
  isSpace_gap : ∀ ch ∈ l.gap, isSpace ch = true
  head : ∀ ch ∈ (l.body ++ l.tail).head?, isSpace ch = false
  boundary : l.gap ≠ [] ∨ ∀ ch ∈ (l.body ++ l.tail).head?, isBlank ch = true ∨ ch = '['
  leads : Leads l.front l.stretch.text
  stretch : l.stretch.Reads
  noLabel : NoLabel l.body
  tail : l.tail = [] ∨ EndsBlank l.body ∧ StartsLabel l.tail

variable {l : Layout}

theorem body_ne_nil (hname : l.stretch.name ≠ []) : l.body ≠ [] :=
  List.append_ne_nil_of_right_ne_nil _ (Stretch.text_ne_nil hname)

theorem line_eq_body (l : Layout) : l.line = (l.opening ++ l.body) ++ l.tail :=
  (List.append_assoc ..).symm

theorem line_eq_upToName (l : Layout) : l.line = l.upToName ++
    (l.stretch.name ++ (l.stretch.after ++ (l.stretch.literal ++ (l.stretch.trailing ++ l.tail)))) := by
  simp only [line, body, upToName, Stretch.text, List.append_assoc]

theorem line_eq_upToNameEnd (l : Layout) : l.line = l.upToNameEnd ++
    (l.stretch.after ++ (l.stretch.literal ++ (l.stretch.trailing ++ l.tail))) := by
  rw [line_eq_upToName, upToNameEnd, List.append_assoc]

theorem line_eq_upToLiteral (l : Layout) :
    l.line = l.upToLiteral ++ (l.stretch.literal ++ (l.stretch.trailing ++ l.tail)) := by
  rw [line_eq_upToNameEnd, upToLiteral, List.append_assoc]

theorem token_eq (l : Layout) :
    l.stretch.token (l.opening.length + (frontText l.front).length)
      = ⟨⟨l.upToName.length, l.upToNameEnd.length⟩, l.stretch.name⟩ := by
  simp only [Stretch.token, upToNameEnd, upToName, List.length_append, Nat.add_assoc]

theorem maturity_eq (h : l.stretch.literal ≠ []) : l.evolution.maturity
    = some ⟨⟨l.upToLiteral.length, l.upToLiteral.length + l.stretch.literal.length⟩,
        Decimal.value l.stretch.literal⟩ := by
  have hstart : l.opening.length + (frontText l.front).length +
      (l.stretch.before ++ (l.stretch.name ++ l.stretch.after)).length = l.upToLiteral.length := by
    simp only [upToLiteral, upToNameEnd, upToName, List.length_append]
    omega
  rw [← hstart]
  exact if_neg h

theorem maturity_eq_none (h : l.stretch.literal = []) : l.evolution.maturity = none :=
  if_pos h

theorem maturity_value_eq (l : Layout) : l.evolution.maturity.map Number.value
    = if l.stretch.literal = [] then none else some (Decimal.value l.stretch.literal) := by
  by_cases hnil : l.stretch.literal = []
  · rw [maturity_eq_none hnil, if_pos hnil, Option.map_none]
  · rw [maturity_eq hnil, if_neg hnil, Option.map_some]

/-- A clause that is missing is put behind the number, or else behind the last name. -/
theorem insertPoint_eq (l : Layout) : l.evolution.insertPoint =
    if l.stretch.literal = [] then l.upToNameEnd.length
    else (l.upToLiteral ++ l.stretch.literal).length := by
  by_cases hliteral : l.stretch.literal = []
  · have hstop : (l.stretch.token (l.opening.length + (frontText l.front).length)).span.stop
        = l.upToNameEnd.length := by
      rw [token_eq]
    rw [if_pos hliteral, ← hstop, Evolution.insertPoint, maturity_eq_none hliteral]
    cases hfront : l.front with
    | none => simp only [evolution, ofParts, hfront, Option.map_none, Option.getD_none]
    | some f => simp only [evolution, ofParts, hfront, Option.map_some]
  · rw [if_neg hliteral, Evolution.insertPoint, maturity_eq hliteral, List.length_append]

theorem name_of_none (h : l.front = none) : l.evolution.name
    = ⟨⟨l.upToName.length, l.upToNameEnd.length⟩, l.stretch.name⟩ := by
  rw [← token_eq, evolution, ofParts, h]
  rfl

theorem override_of_none (h : l.front = none) : l.evolution.override = none := by
  rw [evolution, ofParts, h]
  rfl

theorem name_of_some {f : Front} (h : l.front = some f) :
    l.evolution.name = f.token l.opening.length := by
  rw [evolution, ofParts, h]
  rfl

theorem override_of_some {f : Front} (h : l.front = some f) : l.evolution.override
    = some ⟨f.arrow l.opening.length,
        ⟨⟨l.upToName.length, l.upToNameEnd.length⟩, l.stretch.name⟩⟩ := by
  rw [← token_eq, evolution, ofParts, h]
  rfl

/-- The name that overrides the first one is the last name of the line, if there are two. -/
theorem override_eq (l : Layout) :
    l.evolution.override.map (·.name.value) = l.front.map fun _ => l.stretch.name := by
  change (l.front.map _).map _ = _
  rw [Option.map_map]
  rfl

theorem name_eq (l : Layout) :
    l.evolution.name.value = (l.front.map Front.name).getD l.stretch.name := by
  cases hfront : l.front with
  | none => simp only [evolution, ofParts, hfront, Option.map_none, Option.getD_none, Stretch.token]
  | some f => simp only [evolution, ofParts, hfront, Option.map_some, Option.getD_some, Front.token]

/-- The label is read from the text behind the stretch alone. -/
theorem label_eq (l : Layout) : l.evolution.label.map LabelClause.values
    = (⟨0, l.tail⟩ : Cursor).label?.map LabelClause.values :=
  Cursor.map_values_label? _ _ l.tail

theorem literal_ne_nil_of_maturity {l : Layout} (h : l.evolution.maturity.isSome = true) :
    l.stretch.literal ≠ [] := by
  intro hnil
  rw [maturity_eq_none hnil] at h
  exact absurd h (by decide)

theorem name_ne_nil_of_names {l : Layout} (hbase : l.evolution.name.value ≠ [])
    (hoverride : ∀ clause ∈ l.evolution.override, clause.name.value ≠ []) : l.stretch.name ≠ [] := by
  cases hfront : l.front with
  | none =>
      rw [name_of_none hfront] at hbase
      exact hbase
  | some f => exact hoverride _ (override_of_some hfront)

theorem Reads.no_quote (h : l.Reads) : '"' ∉ l.body := by
  intro hmem
  rcases List.mem_append.mp hmem with hmem | hmem
  · exact not_mem_frontText h.leads hmem
  · exact h.stretch.no_quote hmem

theorem Reads.ofLine?_eq (h : l.Reads) : ofLine? l.line = some l.evolution := by
  have hopens : Kind.Opens .evolve l.line l.lead l.gap ⟨l.opening.length, l.body ++ l.tail⟩ :=
    ⟨Cursor.passes_ofLine_iff.mpr ⟨rfl, rfl⟩, h.isSpace_lead, h.isSpace_gap, h.head, h.boundary⟩
  have hbody : ofBody ⟨l.opening.length, l.body⟩ l.tailPlace.label? = l.evolution :=
    ofBody_eq h.stretch h.leads _ _
  unfold ofLine?
  rw [hopens.map_open? ofCursor, ofCursor_eq h.no_quote h.noLabel h.tail, ← hbody]
  rfl

theorem Reads.withParts (h : l.Reads) {front : Option Front} {s : Stretch} (hne : l.body ≠ [])
    (hhead : (frontText front ++ s.text).head? = l.body.head?) (hleads : Leads front s.text)
    (hs : s.Reads) (hnoLabel : NoLabel (frontText front ++ s.text))
    (hends : EndsBlank l.body → EndsBlank (frontText front ++ s.text)) :
    ({ l with front, stretch := s } : Layout).Reads := by
  have hsame : ((frontText front ++ s.text) ++ l.tail).head? = (l.body ++ l.tail).head? := by
    obtain ⟨c, t, ht⟩ := List.exists_cons_of_ne_nil hne
    rw [List.head?_append, hhead, List.head?_append, ht]
  refine ⟨h.isSpace_lead, h.isSpace_gap, ?_, ?_, hleads, hs, hnoLabel, ?_⟩
  · exact fun ch hch => h.head ch (hsame ▸ hch)
  · exact h.boundary.imp_right fun hboundary ch hch => hboundary ch (hsame ▸ hch)
  · exact h.tail.imp_right fun htail => ⟨hends htail.1, htail.2⟩

/-- Behind the last name the stretch may change, as long as no arrow and no label come to be there. -/
theorem Reads.withStretch (h : l.Reads) (hname : l.stretch.name ≠ []) {s : Stretch} (hs : s.Reads)
    (hbefore : s.before = l.stretch.before) (hsame : s.name = l.stretch.name)
    (hnoArrow : Name.NoArrow l.stretch.text → Name.NoArrow s.text)
    (hnoLabel : NoLabel (frontText l.front ++ s.text))
    (hends : EndsBlank l.body → EndsBlank (frontText l.front ++ s.text)) :
    ({ l with stretch := s } : Layout).Reads := by
  have hhead : s.text.head? = l.stretch.text.head? := by
    rw [Stretch.head?_text hname, Stretch.head?_text (hsame ▸ hname), hbefore, hsame]
  have hleads : Leads l.front s.text := by
    have hleads := h.leads
    cases hfront : l.front with
    | none =>
        rw [hfront] at hleads
        exact hnoArrow hleads
    | some f =>
        rw [hfront] at hleads
        exact ⟨hleads.1, fun ch hch => hleads.2 ch (hhead ▸ hch)⟩
  refine h.withParts (body_ne_nil hname) ?_ hleads hs hnoLabel hends
  rw [body, List.head?_append, List.head?_append, hhead]

end Layout

/-- Every `evolve` line without quotes consists of such parts. -/
theorem exists_layout {line : Text} {e : Evolution} (he : ofLine? line = some e) (hquote : '"' ∉ line) :
    ∃ l : Layout, l.Reads ∧ l.line = line ∧ l.evolution = e := by
  obtain ⟨c, hopen, -⟩ := Option.map_eq_some_iff.mp he
  obtain ⟨lead, gap, hopens, -⟩ := Kind.exists_opens hopen
  generalize c.skipSpaces = place at hopens
  obtain ⟨hline, -⟩ := Cursor.passes_ofLine_iff.mp hopens.passes
  have hquoteRest : '"' ∉ place.rest := by
    rw [hline] at hquote
    exact fun hmem => hquote (List.mem_append_right _ hmem)
  obtain ⟨body, tail, hrest, hbody, htail⟩ := exists_noLabel place.rest
  have hquoteBody : '"' ∉ body := by
    rw [hrest] at hquoteRest
    exact fun hmem => hquoteRest (List.mem_append_left _ hmem)
  obtain ⟨front, s, hfront, hs, rfl⟩ := exists_parts hquoteBody
  have hreads : Layout.Reads ⟨lead, gap, front, s, tail⟩ :=
    ⟨hopens.isSpace_lead, hopens.isSpace_gap, hrest ▸ hopens.head, hrest ▸ hopens.boundary, hfront,
      hs, hbody, htail⟩
  have hlayout : Layout.line ⟨lead, gap, front, s, tail⟩ = line := by
    rw [hline, hrest]
    rfl
  refine ⟨_, hreads, hlayout, ?_⟩
  have hread := hreads.ofLine?_eq
  rw [hlayout, he] at hread
  exact (Option.some.inj hread).symm

end Evolution

end WardleyMap
