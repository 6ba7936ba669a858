import Mathlib.Order.Bounds.Basic
import WardleyMap.Mutation.Apply
import WardleyMap.Proofs.Edit.Basic

/-!
# Looking for a statement by its name

The lines of a document are looked through in their order, so the statement that is found by a name
stands on the least line that holds one under the name. What a component evolves to is looked for in
this way only if the line that the model tracks says nothing about the component; `evolve` statements go
by two names, so a component is found by either.
-/

namespace WardleyMap

namespace Document

variable {doc : Document} {kind : Kind} {name : Text} {n : Nat}

/-! ### Numbered lines -/

theorem mem_numberFrom_iff {start : Nat} {lines : List Text} {text : Text} :
    (n, text) ∈ numberFrom start lines ↔
      ∃ i, n = start + i ∧ lines[i]?.map content = some text := by
  induction lines generalizing start with
  | nil => simp [numberFrom]
  | cons stored rest ih =>
      rw [numberFrom, List.mem_cons, ih]
      constructor
      · rintro (h | ⟨i, rfl, hi⟩)
        · obtain ⟨rfl, rfl⟩ := Prod.mk.inj h
          exact ⟨0, rfl, rfl⟩
        · exact ⟨i + 1, by omega, hi⟩
      · rintro ⟨i, rfl, hi⟩
        cases i with
        | zero => exact Or.inl (Prod.ext rfl (Option.some.inj hi).symm)
        | succ i => exact Or.inr ⟨i, by omega, hi⟩

theorem mem_numbered_iff {text : Text} : (n, text) ∈ doc.numbered ↔ doc.line? n = some text := by
  rw [numbered, mem_numberFrom_iff]
  constructor
  · rintro ⟨i, rfl, hi⟩
    rw [Nat.add_comm]
    exact hi
  · intro h
    cases n with
    | zero => simp [line?, stored?] at h
    | succ i => exact ⟨i, Nat.add_comm i 1, h⟩

theorem pairwise_numberFrom (start : Nat) (lines : List Text) :
    (numberFrom start lines).Pairwise fun a b => a.1 < b.1 := by
  induction lines generalizing start with
  | nil => exact .nil
  | cons stored rest ih =>
      refine .cons (fun ⟨m, text⟩ hm => ?_) (ih (start + 1))
      obtain ⟨i, rfl, -⟩ := mem_numberFrom_iff.mp hm
      dsimp only
      omega

/-! ### The first statement with a name -/

def Holds (doc : Document) (kind : Kind) (name : Text) (n : Nat) : Prop :=
  ∃ text statement, doc.line? n = some text ∧ Statement.ofLine? kind text = some statement ∧
    statement.goesBy name = true

def candidates (doc : Document) (kind : Kind) : List Located :=
  doc.numbered.filterMap fun (line, text) =>
    (Statement.ofLine? kind text).map fun statement => ⟨line, text, statement, none⟩

/-- The candidates are the lines that hold a statement of the kind, each read under its own number. -/
theorem mem_candidates_iff {found : Located} : found ∈ doc.candidates kind ↔
    doc.line? found.line = some found.text ∧
      Statement.ofLine? kind found.text = some found.statement ∧ found.mismatch = none := by
  unfold candidates
  rw [List.mem_filterMap]
  constructor
  · rintro ⟨⟨line, text⟩, hmem, hfound⟩
    obtain ⟨statement, hstatement, rfl⟩ := Option.map_eq_some_iff.mp hfound
    exact ⟨mem_numbered_iff.mp hmem, hstatement, rfl⟩
  · obtain ⟨line, text, statement, mismatch⟩ := found
    rintro ⟨hline, hstatement, rfl⟩
    exact ⟨(line, text), mem_numbered_iff.mpr hline, Option.map_eq_some_iff.mpr
      ⟨statement, hstatement, rfl⟩⟩

theorem pairwise_candidates (doc : Document) (kind : Kind) :
    (doc.candidates kind).Pairwise fun a b => a.line < b.line := by
  unfold candidates
  rw [List.pairwise_filterMap]
  refine (pairwise_numberFrom 1 doc.lines).imp fun {a b} hlt x hx y hy => ?_
  obtain ⟨-, -, rfl⟩ := Option.map_eq_some_iff.mp hx
  obtain ⟨-, -, rfl⟩ := Option.map_eq_some_iff.mp hy
  exact hlt

theorem holds_iff : doc.Holds kind name n ↔
    ∃ found ∈ doc.candidates kind, found.line = n ∧ found.statement.goesBy name = true := by
  constructor
  · rintro ⟨text, statement, hline, hstatement, hname⟩
    exact ⟨⟨n, text, statement, none⟩, mem_candidates_iff.mpr ⟨hline, hstatement, rfl⟩, rfl, hname⟩
  · rintro ⟨found, hmem, rfl, hname⟩
    obtain ⟨hline, hstatement, -⟩ := mem_candidates_iff.mp hmem
    exact ⟨found.text, found.statement, hline, hstatement, hname⟩

/-- A search for a name finds the line that comes first among those that go by it. -/
theorem isLeast_of_findStatement {found : Located} (h : doc.findStatement kind name = .ok found) :
    IsLeast {n | doc.Holds kind name n} found.line := by
  have hfind : (doc.candidates kind).find? (·.statement.goesBy name) = some found := by
    unfold findStatement at h
    dsimp only at h
    split at h
    · next located hfind =>
        rw [← Except.ok.inj h]
        exact hfind
    · simp at h
  obtain ⟨hname, before, after, hsplit, hbefore⟩ := List.find?_eq_some_iff_append.mp hfind
  refine ⟨holds_iff.mpr ⟨found, List.mem_of_find?_eq_some hfind, rfl, hname⟩, ?_⟩
  rintro m hm
  obtain ⟨other, hother, rfl, hotherName⟩ := holds_iff.mp hm
  have hpairwise := doc.pairwise_candidates kind
  rw [hsplit] at hother hpairwise
  rcases List.mem_append.mp hother with hother | hother
  · have := hbefore other hother
    simp [hotherName] at this
  · rcases List.mem_cons.mp hother with rfl | hother
    · exact Nat.le_refl _
    · exact Nat.le_of_lt ((List.pairwise_cons.mp (List.pairwise_append.mp hpairwise).2.1).1 _ hother)

theorem findStatement_eq_error {cause : LocateError} (h : doc.findStatement kind name = .error cause)
    (n : Nat) : ¬doc.Holds kind name n := by
  have hfind : (doc.candidates kind).find? (·.statement.goesBy name) = none := by
    unfold findStatement at h
    dsimp only at h
    split at h
    · simp at h
    · next hfind => exact hfind
  intro hn
  obtain ⟨found, hmem, -, hname⟩ := holds_iff.mp hn
  exact List.find?_eq_none.mp hfind found hmem hname

/-! ### The line of an evolved component -/

def EvolvesFrom (doc : Document) (name : Text) (n : Nat) : Prop :=
  ∃ text e, doc.line? n = some text ∧ Evolution.ofLine? text = some e ∧
    Name.agrees e.name.value name = true

/-- Line `n` holds an `evolve` statement, and the name is one of its two names. -/
def Evolves (doc : Document) (name : Text) (n : Nat) : Prop :=
  ∃ text e, doc.line? n = some text ∧ Evolution.ofLine? text = some e ∧
    (Name.agrees e.name.value name = true ∨
      ∃ clause ∈ e.override, Name.agrees clause.name.value name = true)

def EvolvesOnlyTo (doc : Document) (name : Text) (n : Nat) : Prop :=
  doc.Evolves name n ∧ ¬doc.EvolvesFrom name n

theorem any_agrees_iff_evolvesFrom :
    ((doc.line? n).bind Evolution.ofLine?).any (Name.agrees ·.name.value name) = true ↔
      doc.EvolvesFrom name n := by
  rw [Option.any_eq_true]
  constructor
  · rintro ⟨e, he, hname⟩
    obtain ⟨text, hline, he⟩ := Option.bind_eq_some_iff.mp he
    exact ⟨text, e, hline, he, hname⟩
  · rintro ⟨text, e, hline, he, hname⟩
    exact ⟨e, Option.bind_eq_some_iff.mpr ⟨text, hline, he⟩, hname⟩

instance (doc : Document) (name : Text) (n : Nat) : Decidable (doc.EvolvesFrom name n) :=
  decidable_of_iff _ any_agrees_iff_evolvesFrom

theorem EvolvesFrom.evolves (h : doc.EvolvesFrom name n) : doc.Evolves name n := by
  obtain ⟨text, e, hline, he, hname⟩ := h
  exact ⟨text, e, hline, he, Or.inl hname⟩

theorem goesBy_evolution_iff {e : Evolution} : (Statement.evolution e).goesBy name = true ↔
    Name.agrees e.name.value name = true ∨
      ∃ clause ∈ e.override, Name.agrees clause.name.value name = true := by
  simp [Statement.goesBy, Option.any_eq_true]

theorem holds_evolve_iff : doc.Holds .evolve name n ↔ doc.Evolves name n := by
  constructor
  · rintro ⟨text, statement, hline, hstatement, hname⟩
    obtain ⟨e, he, rfl⟩ := Option.map_eq_some_iff.mp hstatement
    exact ⟨text, e, hline, he, goesBy_evolution_iff.mp hname⟩
  · rintro ⟨text, e, hline, he, hname⟩
    exact ⟨text, .evolution e, hline, Option.map_eq_some_iff.mpr ⟨e, he, rfl⟩,
      goesBy_evolution_iff.mpr hname⟩

/-- A tracked line counts only if it still holds an `evolve` statement with the name. -/
theorem trackedLine?_eq_some_iff {tracked : Option Nat} :
    doc.trackedLine? name tracked = some n ↔ tracked = some n ∧ doc.Evolves name n := by
  unfold trackedLine?
  rw [Option.filter_eq_some_iff, ← holds_evolve_iff]
  refine and_congr_right fun _ => ?_
  constructor
  · intro h
    split at h
    · next found hlocate =>
        obtain ⟨text, statement, hline, hstatement, rfl⟩ := locate_eq_ok_iff.mp hlocate
        refine ⟨text, statement, hline, hstatement, ?_⟩
        by_contra hname
        simp [Statement.mismatch?, hname] at h
    · simp at h
  · rintro ⟨text, statement, hline, hstatement, hname⟩
    rw [locate_eq_ok_iff.mpr ⟨text, statement, hline, hstatement, rfl⟩]
    simp [Statement.mismatch?, hname]

/-- The tracked line is taken if it has the name, and otherwise the least line that has it. -/
theorem evolutionLine_eq_ok_iff {tracked : Option Nat} : doc.evolutionLine name tracked = .ok n ↔
    (tracked = some n ∧ doc.Evolves name n) ∨
      ((∀ m ∈ tracked, ¬doc.Evolves name m) ∧ IsLeast {m | doc.Evolves name m} n) := by
  have huntracked (h : doc.trackedLine? name tracked = none) : ∀ m ∈ tracked, ¬doc.Evolves name m := by
    intro m hm hevolves
    rw [trackedLine?_eq_some_iff.mpr ⟨hm, hevolves⟩] at h
    simp at h
  unfold evolutionLine
  constructor
  · intro h
    split at h
    · next m htracked =>
        obtain rfl := Except.ok.inj h
        exact Or.inl (trackedLine?_eq_some_iff.mp htracked)
    · next htracked =>
        split at h
        · next found hfound =>
            obtain rfl := Except.ok.inj h
            have hleast := isLeast_of_findStatement hfound
            simp only [holds_evolve_iff] at hleast
            exact Or.inr ⟨huntracked htracked, hleast⟩
        · simp at h
  · rintro (htracked | ⟨hnone, hleast⟩)
    · rw [trackedLine?_eq_some_iff.mpr htracked]
    · have htracked : doc.trackedLine? name tracked = none := by
        rw [Option.eq_none_iff_forall_ne_some]
        intro m hm
        obtain ⟨hm, hevolves⟩ := trackedLine?_eq_some_iff.mp hm
        exact hnone m hm hevolves
      rw [htracked]
      dsimp only
      split
      · next found hfound =>
          have hfoundLeast := isLeast_of_findStatement hfound
          simp only [holds_evolve_iff] at hfoundLeast
          rw [hleast.unique hfoundLeast]
      · next cause hfound =>
          exact absurd (holds_evolve_iff.mpr hleast.1) (findStatement_eq_error hfound n)

theorem evolves_of_evolutionLine {tracked : Option Nat} (h : doc.evolutionLine name tracked = .ok n) :
    doc.Evolves name n := by
  rcases evolutionLine_eq_ok_iff.mp h with ⟨-, hn⟩ | ⟨-, hn⟩
  · exact hn
  · exact hn.1

/-- The line is missing only where no `evolve` statement has the name at all. -/
theorem evolutionLine_eq_error_iff {tracked : Option Nat} {refusal : Refusal} :
    doc.evolutionLine name tracked = .error refusal ↔
      refusal = .noEvolution name ∧ ∀ n, ¬doc.Evolves name n := by
  have herror {refusal : Refusal} (h : doc.evolutionLine name tracked = .error refusal) :
      refusal = .noEvolution name ∧ ∀ n, ¬doc.Evolves name n := by
    unfold evolutionLine at h
    split at h
    · simp at h
    · split at h
      · simp at h
      · next cause hfound =>
          refine ⟨(Except.error.inj h).symm, fun n hn => ?_⟩
          exact findStatement_eq_error hfound n (holds_evolve_iff.mpr hn)
  refine ⟨herror, ?_⟩
  rintro ⟨rfl, hnone⟩
  cases hline : doc.evolutionLine name tracked with
  | ok n =>
      rcases evolutionLine_eq_ok_iff.mp hline with ⟨-, hn⟩ | ⟨-, hn⟩
      · exact absurd hn (hnone n)
      · exact absurd hn.1 (hnone n)
  | error refusal => rw [(herror hline).1]

/-! ### Statements of other components -/

/-- The statement that is taken for that of the component is one of another component: the tracked line
holds one, or the tracked line does not have the name and the first line that has it holds one. -/
def Misleads (doc : Document) (name : Text) (tracked : Option Nat) : Prop :=
  (∃ n ∈ tracked, doc.EvolvesOnlyTo name n) ∨
    ((∀ n ∈ tracked, ¬doc.Evolves name n) ∧
      ∃ n, doc.EvolvesOnlyTo name n ∧ ∀ m, doc.EvolvesFrom name m → n < m)

/-- The line is that of the component unless the text misleads, in one of the ways that `Misleads` lists. -/
theorem evolvesFrom_iff_not_misleads {tracked : Option Nat}
    (h : doc.evolutionLine name tracked = .ok n) :
    doc.EvolvesFrom name n ↔ ¬doc.Misleads name tracked := by
  rcases evolutionLine_eq_ok_iff.mp h with ⟨rfl, hevolves⟩ | ⟨hnone, hevolves, hleast⟩
  · constructor
    · rintro hfrom (⟨m, hm, honly⟩ | ⟨hnone, -⟩)
      · obtain rfl := Option.some.inj hm
        exact honly.2 hfrom
      · exact hnone n rfl hevolves
    · intro hmisleads
      by_contra hfrom
      exact hmisleads (Or.inl ⟨n, rfl, hevolves, hfrom⟩)
  · constructor
    · rintro hfrom (⟨m, hm, honly⟩ | ⟨-, m, honly, hbefore⟩)
      · exact hnone m hm honly.1
      · exact absurd (hbefore n hfrom) (Nat.not_lt.mpr (hleast honly.1))
    · intro hmisleads
      by_contra hfrom
      refine hmisleads (Or.inr ⟨hnone, n, ⟨hevolves, hfrom⟩, fun m hm => ?_⟩)
      refine Nat.lt_of_le_of_ne (hleast hm.evolves) ?_
      rintro rfl
      exact hfrom hm

end Document

end WardleyMap
