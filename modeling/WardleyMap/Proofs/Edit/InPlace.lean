import WardleyMap.Edit.Basic
import WardleyMap.Proofs.Edit.Boundary
import WardleyMap.Proofs.Statement.Checked
import WardleyMap.Proofs.Statement.Sound
import WardleyMap.Proofs.Text.Bytes

/-!
# Edits stay in the line

The host replaces bytes, and counts them in the line as it was before any of its spans was replaced. That goes
wrong if a count is no place in the text as it has become by then. It never is: the spans are replaced from right
to left, so the text up to the end of a span is still that of the line when its turn comes, and the spans of
a statement are places of its line. With the spans of a statement sound, no edit of it can fail.
-/

namespace WardleyMap

/-- The first span starts in front of the second one and does not reach into it. -/
def Span.Precedes (s t : Span) : Prop :=
  s.start < t.start ∧ s.stop ≤ t.start

/-- Replaces the bytes between two offsets, if there is a span of the text between them. -/
def Text.replaceBytes? (s : Text) (start stop : Nat) (new : Text) : Option Text :=
  (Span.ofBytes? s start stop).map fun span => Replacement.apply ⟨span, new⟩ s

namespace Replacement

/-- The replacements made on bytes, whose offsets are counted in the line as it was. -/
def applyBytes? (rs : List Replacement) (line : Text) : Option Text :=
  (rightToLeft rs).foldlM (fun text r =>
    text.replaceBytes? (line.byteOffset r.span.start) (line.byteOffset r.span.stop) r.text) line

/-- The replacements, made on bytes, do not fail, and do what they do on characters. -/
def InPlace (line : Text) (rs : List Replacement) : Prop :=
  applyBytes? rs line = some (applyAll rs line)

variable {line : Text} {r : Replacement} {rs : List Replacement} {start stop : Nat}

/-- A text that is still that of the line up to the end of the span has the span where the line had it. -/
theorem replaceBytes?_eq {text : Text} (htake : text.take r.span.stop = line.take r.span.stop)
    (hspan : r.span.start ≤ r.span.stop) (hstop : r.span.stop ≤ line.length) :
    text.replaceBytes? (line.byteOffset r.span.start) (line.byteOffset r.span.stop) r.text
      = some (r.apply text) := by
  have hlength : r.span.stop ≤ text.length := by
    have := congrArg List.length htake
    rw [List.length_take, List.length_take, Nat.min_eq_left hstop] at this
    omega
  rw [Text.replaceBytes?, ← Text.byteOffset_congr htake hspan,
    ← Text.byteOffset_congr htake (Nat.le_refl _), Span.ofBytes?_byteOffset hspan hlength]
  rfl

theorem inPlace_nil (line : Text) : InPlace line [] := rfl

theorem inPlace_singleton (hspan : r.span.start ≤ r.span.stop) (hstop : r.span.stop ≤ line.length) :
    InPlace line [r] := by
  change (line.replaceBytes? _ _ r.text).bind some = some (r.apply line)
  rw [replaceBytes?_eq rfl hspan hstop]
  rfl

/-- Replacements that keep apart can be made on bytes from right to left, as no earlier offset is moved. -/
theorem inPlace_of_pairwise
    (hspans : ∀ r ∈ rs, r.span.start ≤ r.span.stop ∧ r.span.stop ≤ line.length)
    (h : rs.Pairwise fun r s => r.span.Precedes s.span) : InPlace line rs := by
  induction rs with
  | nil => exact inPlace_nil line
  | cons r rs ih =>
      obtain ⟨hfirst, hrest⟩ := List.pairwise_cons.mp h
      obtain ⟨⟨hspan, hlength⟩, hspans⟩ := List.forall_mem_cons.mp hspans
      have hstart : ∀ s ∈ rs, r.span.start < s.span.start := fun s hs => (hfirst s hs).1
      -- the spans behind this one have been replaced, and the text up to its end is unchanged
      have htake : (applyAll rs line).take r.span.stop = line.take r.span.stop :=
        take_applyAll hlength fun s hs => (hfirst s hs).2
      have hothers : (rightToLeft rs).foldlM (fun text r =>
          text.replaceBytes? (line.byteOffset r.span.start) (line.byteOffset r.span.stop) r.text) line
          = some (applyAll rs line) := ih hspans hrest
      rw [InPlace, applyBytes?, rightToLeft_cons hstart, List.foldlM_append, hothers, applyAll_cons hstart]
      change ((applyAll rs line).replaceBytes? _ _ r.text).bind some = _
      rw [replaceBytes?_eq htake hspan hlength]
      rfl

theorem Ascending.within (h : Ascending stop start rs) :
    ∀ r ∈ rs, r.span.start ≤ r.span.stop ∧ r.span.stop ≤ stop := by
  induction rs generalizing start with
  | nil => simp
  | cons r rs ih =>
      obtain ⟨-, hspan, hrest⟩ := h
      exact List.forall_mem_cons.mpr ⟨⟨hspan.le, hrest.le⟩, ih hrest⟩

theorem Ascending.pairwise (h : Ascending stop start rs) :
    rs.Pairwise fun r s => r.span.Precedes s.span := by
  induction rs generalizing start with
  | nil => exact List.Pairwise.nil
  | cons r rs ih =>
      obtain ⟨-, -, hrest⟩ := id h
      exact List.pairwise_cons.mpr
        ⟨fun s hs => ⟨h.start_lt s hs, hrest.le_start s hs⟩, ih hrest⟩

theorem inPlace_of_ascending (h : Ascending stop start rs) (hstop : stop ≤ line.length) :
    InPlace line rs :=
  inPlace_of_pairwise (fun r hr => ⟨(h.within r hr).1, (h.within r hr).2.trans hstop⟩) h.pairwise

theorem inPlace_insertion {col : Nat} (h : col ≤ line.length) (new : Text) :
    InPlace line [insertion col new] :=
  inPlace_singleton (Nat.le_refl _) h

end Replacement

open Replacement

variable {line : Text} {precision col start stop : Nat}

theorem Number.IsAt.start_lt_stop {number : Number} (h : number.IsAt line) :
    number.span.start < number.span.stop := by
  by_contra hle
  have hslice : number.span.slice line = [] := by
    rw [Span.slice, List.drop_eq_nil_iff, List.length_take]
    omega
  exact Decimal.literal_ne_nil h.1 hslice

theorem ascending_of_inOrder {numbers : List Number} {values : List Float}
    (h : Span.InOrder start (numbers.map Number.span) stop)
    (hnumbers : ∀ number ∈ numbers, number.IsAt line) :
    Ascending stop start (Field.replacements precision numbers values) := by
  induction numbers generalizing start values with
  | nil => exact h
  | cons number numbers ih =>
      cases values with
      | nil => exact h.le
      | cons x values =>
          exact ⟨h.1, (hnumbers number List.mem_cons_self).start_lt_stop,
            ih h.2.2 fun found hfound => hnumbers found (List.mem_cons_of_mem _ hfound)⟩

theorem inPlace_writeNumbers {numbers : List Number} (values : List Float)
    (h : Span.InOrder start (numbers.map Number.span) stop) (hstop : stop ≤ line.length)
    (hnumbers : ∀ number ∈ numbers, number.IsAt line) :
    InPlace line (writeNumbers precision numbers values) := by
  unfold writeNumbers
  dsimp only
  split
  · exact inPlace_nil line
  · exact inPlace_of_ascending (ascending_of_inOrder h hnumbers) hstop

namespace Statement

variable {s : Statement} {span : Span}

theorem IsAt.insertPoint_le (h : s.IsAt line col) : s.insertPoint ≤ line.length :=
  h.behind.le

theorem IsAt.within_clauses (h : s.IsAt line col) :
    ∀ span ∈ s.clauses ++ s.behind, span.start ≤ span.stop ∧ span.stop ≤ line.length :=
  fun span hspan => ((h.clauses.append h.behind).within span hspan).2

/-- Every group of numbers that an edit writes lies among the parts of the statement. -/
theorem group_mem (s : Statement) : ∀ g ∈ s.groups, g.1 ∈ s.clauses ++ s.behind := by
  cases s with
  | placement p =>
      refine forall_groups_placement.mpr ⟨fun bracket hbracket => ?_, fun label hlabel => ?_⟩
      · simp [clauses, Option.mem_def.mp hbracket]
      · simp [behind, Option.mem_def.mp hlabel]
  | evolution e =>
      refine forall_groups_evolution.mpr ⟨fun number hnumber => ?_, fun label hlabel => ?_⟩
      · simp [clauses, Option.mem_def.mp hnumber]
      · simp [behind, Option.mem_def.mp hlabel]
  | region r =>
      intro g hg
      obtain ⟨bracket, hbracket, rfl⟩ := List.mem_map.mp hg
      exact List.mem_append_left _ (List.mem_map_of_mem hbracket)
  | annotation a =>
      intro g hg
      rw [List.mem_singleton.mp hg]
      exact List.mem_cons_self

theorem IsAt.within (h : s.IsAt line col) :
    ∀ span ∈ s.spans, span.start ≤ span.stop ∧ span.stop ≤ line.length := by
  intro span hspan
  rcases List.mem_append.mp hspan with hspan | hspan
  · exact h.within_clauses span hspan
  · obtain ⟨g, hg, hspan⟩ := List.mem_flatMap.mp hspan
    have hgroup := h.within_clauses g.1 (s.group_mem _ hg)
    obtain ⟨-, hle, hstop⟩ := (h.groups g hg).within span hspan
    exact ⟨hle, hstop.trans hgroup.2⟩

/-- New values for the numbers of one of the statement's groups are written in place. -/
theorem IsAt.inPlace_writeNumbers (h : s.IsAt line col) {numbers : List Number}
    (hg : (span, numbers) ∈ s.groups) (values : List Float) :
    InPlace line (writeNumbers precision numbers values) :=
  WardleyMap.inPlace_writeNumbers values (h.groups _ hg)
    (h.within_clauses span (s.group_mem _ hg)).2 (h.numbers _ hg)

theorem IsAt.inPlace_writeBracket (h : s.IsAt line col) {bracket : Option Bracket} {column : Nat}
    (hbracket : ∀ b ∈ bracket, (b.span, b.values) ∈ s.groups) (hat : column ≤ line.length)
    (values : List Float) : InPlace line (writeBracket precision bracket column values) := by
  cases bracket with
  | some b => exact h.inPlace_writeNumbers (hbracket b rfl) values
  | none => exact inPlace_insertion hat _

theorem IsAt.inPlace_writeLabel (h : s.IsAt line col) {label : Option LabelClause}
    (hlabel : ∀ l ∈ label, (l.span, [l.dx, l.dy]) ∈ s.groups) (dx dy : Float) :
    InPlace line (writeLabel precision label s.insertPoint dx dy) := by
  cases label with
  | some l => exact h.inPlace_writeNumbers (hlabel l rfl) [dx, dy]
  | none => exact inPlace_insertion h.insertPoint_le _

end Statement

namespace Placement

variable {p : Placement}

theorem inPlace_rename (h : (Statement.placement p).IsAt line col) (newName : Text) :
    InPlace line (p.rename newName) := by
  obtain ⟨hspan, hstop⟩ := h.within_clauses p.name.span List.mem_cons_self
  unfold rename
  split
  · exact inPlace_nil line
  · exact inPlace_singleton hspan hstop

theorem inPlace_setCoordinates (h : (Statement.placement p).IsAt line col) (first second : Float) :
    InPlace line (p.setCoordinates precision first second) := by
  refine h.inPlace_writeBracket (fun bracket hbracket => ?_)
    (h.within_clauses p.name.span List.mem_cons_self).2 _
  exact (Statement.forall_groups_placement.mp fun g hg => hg).1 bracket hbracket

theorem inPlace_setLabel {rs : List Replacement} {dx dy : Float}
    (h : (Statement.placement p).IsAt line col) (hrs : p.setLabel? precision dx dy = some rs) :
    InPlace line rs := by
  unfold setLabel? at hrs
  split at hrs
  · obtain rfl := Option.some.inj hrs
    refine h.inPlace_writeLabel (fun label hlabel => ?_) dx dy
    exact (Statement.forall_groups_placement.mp fun g hg => hg).2 label hlabel
  · simp at hrs

end Placement

namespace Evolution

variable {e : Evolution}

/-- The spans that an override is written over are parts of the statement, in their order. -/
theorem inPlace_setOverride (h : (Statement.evolution e).IsAt line col) (newName : Text) :
    InPlace line (e.setOverride newName) := by
  obtain ⟨-, hname⟩ := h.within_clauses e.name.span List.mem_cons_self
  unfold setOverride
  dsimp only
  cases hoverride : e.override with
  | none =>
      dsimp only
      split
      · exact inPlace_nil line
      · exact inPlace_insertion hname _
  | some clause =>
      -- the name, the arrow and the second name follow one another
      have hclauses := h.clauses
      simp only [Statement.clauses, hoverride] at hclauses
      obtain ⟨-, -, harrow, harrowSpan, hstart, hspan, hrest⟩ := hclauses
      have hstop := hrest.le.trans h.insertPoint_le
      dsimp only
      split
      · exact inPlace_singleton (harrow.trans (harrowSpan.trans (hstart.trans hspan))) hstop
      · split
        · exact inPlace_nil line
        · exact inPlace_singleton hspan hstop

theorem inPlace_setMaturity (h : (Statement.evolution e).IsAt line col) (maturity : Float) :
    InPlace line (e.setMaturity precision maturity) := by
  unfold setMaturity
  split
  · next number hnumber =>
      have hgroup : (number.span, [number]) ∈ (Statement.evolution e).groups :=
        (Statement.forall_groups_evolution.mp fun g hg => hg).1 number hnumber
      exact h.inPlace_writeNumbers hgroup [maturity]
  · exact inPlace_insertion h.insertPoint_le _

theorem inPlace_setLabel (h : (Statement.evolution e).IsAt line col) (dx dy : Float) :
    InPlace line (e.setLabel precision dx dy) := by
  refine h.inPlace_writeLabel (fun label hlabel => ?_) dx dy
  exact (Statement.forall_groups_evolution.mp fun g hg => hg).2 label hlabel

end Evolution

theorem Region.inPlace_setEdges {r : Region} (h : (Statement.region r).IsAt line col)
    (top left bottom right : Float) :
    InPlace line (r.setEdges precision top left bottom right) := by
  refine h.inPlace_writeBracket (fun bracket hbracket => ?_) h.insertPoint_le _
  exact List.mem_map_of_mem (Option.mem_toList.mpr hbracket)

/-- The text of an annotation is the last of its parts, or is put behind the last of them. -/
theorem Annotation.inPlace_setText {a : Annotation} {newText : Text} {rs : List Replacement}
    (h : (Statement.annotation a).IsAt line col) (hrs : a.setText? line newText = some rs) :
    InPlace line rs := by
  obtain ⟨points, hpoints, rfl⟩ := Option.map_eq_some_iff.mp hrs
  have hstop : points.stop ≤ line.length := by
    have hmem : points ∈ (Statement.annotation a).clauses := by
      simp [Statement.clauses, hpoints]
    exact (h.within_clauses points (List.mem_append_left _ hmem)).2
  have hwritten (new : Text) : InPlace line [⟨⟨points.stop, line.length⟩, new⟩] :=
    inPlace_singleton hstop (Nat.le_refl _)
  dsimp only
  split
  · exact inPlace_nil line
  · exact hwritten _
  · split
    · exact inPlace_nil line
    · exact hwritten _
  · exact hwritten _

/-- Whatever an edit replaces of a statement, it replaces it in place. -/
theorem Edit.inPlace_plan {edit : Edit} {s : Statement} {rs : List Replacement}
    (h : s.IsAt line col) (hplan : edit.plan? precision line s = some rs) : InPlace line rs := by
  unfold plan? at hplan
  split at hplan
  · next newName p =>
      obtain rfl := Option.some.inj hplan
      exact Placement.inPlace_rename h newName
  · next newName e =>
      obtain rfl := Option.some.inj hplan
      exact Evolution.inPlace_setOverride h newName
  · next position p =>
      obtain rfl := Option.some.inj hplan
      exact Placement.inPlace_setCoordinates h _ _
  · next maturity e =>
      obtain rfl := Option.some.inj hplan
      exact Evolution.inPlace_setMaturity h maturity
  · next start stop p =>
      obtain rfl := Option.some.inj hplan
      split
      · exact Placement.inPlace_setCoordinates h _ _
      · exact Placement.inPlace_setCoordinates h _ _
  · exact Placement.inPlace_setLabel h hplan
  · next offset e =>
      obtain rfl := Option.some.inj hplan
      exact Evolution.inPlace_setLabel h _ _
  · next first second r =>
      obtain rfl := Option.some.inj hplan
      exact Region.inPlace_setEdges h _ _ _ _
  · exact Annotation.inPlace_setText h hplan
  · obtain rfl := Option.some.inj hplan
    exact inPlace_nil line

namespace Statement

/-- Whatever the line holds, no cut of its reader fails. If it is read as a statement, the parts stand in
order behind the keyword and are what their spans show, all spans and the insert point are places of the
line when they are counted in bytes, and no edit of the statement fails on bytes. -/
theorem ofLine?_sound (kind : Kind) (line : Text) :
    Checked.statement kind line = some (ofLine? kind line) ∧
      ∀ s, ofLine? kind line = some s →
        (∃ c, kind.open? line = some c ∧ s.IsAt line c.col) ∧
        (∀ span ∈ s.spans, span.start ≤ span.stop ∧ span.stop ≤ line.length ∧
          Span.ofBytes? line (line.byteOffset span.start) (line.byteOffset span.stop) = some span) ∧
        (s.insertPoint ≤ line.length ∧
          line.column? (line.byteOffset s.insertPoint) = some s.insertPoint) ∧
        ∀ (edit : Edit) (precision : Nat) (rs : List Replacement),
          edit.plan? precision line s = some rs →
            Replacement.applyBytes? rs line = some (Replacement.applyAll rs line) := by
  refine ⟨Checked.statement_eq kind line, fun s hs => ?_⟩
  obtain ⟨c, hopen, hat⟩ := exists_isAt_of_ofLine? hs
  refine ⟨⟨c, hopen, hat⟩, fun span hspan => ?_, ⟨hat.insertPoint_le, ?_⟩, ?_⟩
  · obtain ⟨hle, hstop⟩ := hat.within span hspan
    exact ⟨hle, hstop, Span.ofBytes?_byteOffset hle hstop⟩
  · exact Text.column?_byteOffset hat.insertPoint_le
  · exact fun edit precision rs hplan => Edit.inPlace_plan hat hplan

/-- On a line with both names, a maturity and a label, of which one letter takes two bytes. -/
theorem ofLine?_sound_evolve :
    let line : Text := "evolve Th\u00e9->\"A [1]\" 0.8 label [1, -2]".toList
    ∃ s c, ofLine? .evolve line = some s ∧ s.clauses = [⟨7, 10⟩, ⟨10, 12⟩, ⟨12, 19⟩, ⟨20, 23⟩] ∧
      s.behind = [⟨24, 37⟩] ∧ s.insertPoint = 23 ∧ line.byteOffset s.insertPoint = 24 ∧
      s.IsAt line c := by
  intro line
  obtain ⟨s, hs, hspans⟩ : ∃ s, ofLine? .evolve line = some s ∧
      (s.clauses, s.behind, s.insertPoint)
        = ([⟨7, 10⟩, ⟨10, 12⟩, ⟨12, 19⟩, ⟨20, 23⟩], [⟨24, 37⟩], 23) :=
    Option.map_eq_some_iff.mp (by decide +kernel)
  simp only [Prod.mk.injEq] at hspans
  obtain ⟨hclauses, hbehind, hinsert⟩ := hspans
  obtain ⟨⟨c, -, hat⟩, -⟩ := (ofLine?_sound .evolve line).2 s hs
  refine ⟨s, c.col, hs, hclauses, hbehind, hinsert, ?_, hat⟩
  rw [hinsert]
  decide +kernel

end Statement

end WardleyMap
