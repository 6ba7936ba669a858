import WardleyMap.Proofs.Geometry.Overflow
import WardleyMap.Request.Basic

/-!
# The numbers of a request

A number of a request that is out of the range of doubles makes the request malformed, so all numbers that are
decoded are finite. The bounds of a region are the exception, and the only one: the request gives a corner and a
size, and their sum is formed after decoding (`Mutation.IsDecoded`).
-/

namespace WardleyMap

theorem Json.isFinite_of_float? {json : Json} {x : Float} (h : json.float? = some x) : x.isFinite = true := by
  cases json with
  | number literal =>
      rw [float?, NumberLiteral.toFloat?] at h
      split at h
      · next hfinite =>
          obtain rfl := Option.some.inj h
          exact hfinite
      · cases h
  | _ => cases h

theorem Json.isFinite_of_required? {field : Option Json} {x : Float}
    (h : required? float? field = some x) : x.isFinite = true := by
  obtain ⟨json, -, hjson⟩ := Option.bind_eq_some_iff.mp h
  exact isFinite_of_float? hjson

/-- The numbers of the mutation are as a request can give them, for a canvas of the given size. -/
def Mutation.IsDecoded (viewport : Viewport) : Mutation → Prop
  | rename _ _ | setText _ _ => True
  | move _ position => position.maturity.isFinite = true ∧ position.visibility.isFinite = true
  | setLabel _ offset => offset.dx.isFinite = true ∧ offset.dy.isFinite = true
  | setRange _ start stop => start.isFinite = true ∧ stop.isFinite = true
  | resizeRegion _ bounds canvas => canvas = viewport ∧ ∃ x y width height, bounds = .ofSize x y width height ∧
    x.isFinite = true ∧ y.isFinite = true ∧ width.isFinite = true ∧ height.isFinite = true

namespace Request

variable {viewport : Viewport}

theorem exists_ofSize_of_boundsOfJson? {json : Json} {bounds : Rect} (h : boundsOfJson? json = some bounds) :
    ∃ x y width height, bounds = .ofSize x y width height ∧ x.isFinite = true ∧ y.isFinite = true ∧
      width.isFinite = true ∧ height.isFinite = true := by
  simp only [boundsOfJson?, Option.bind_eq_bind, Option.bind_eq_some_iff] at h
  obtain ⟨fields, -, h⟩ := h
  split at h
  · simp only [Option.bind_eq_some_iff, Option.pure_def, Option.some.injEq] at h
    obtain ⟨x, hx, y, hy, width, hwidth, height, hheight, rfl⟩ := h
    exact ⟨x, y, width, height, rfl, Json.isFinite_of_required? hx, Json.isFinite_of_required? hy,
      Json.isFinite_of_required? hwidth, Json.isFinite_of_required? hheight⟩
  · cases h

/-- A mutation of an element is what its fields make of the element. -/
theorem exists_of_mutationOfElement? {names : List String} {body : Json} {m : Mutation}
    {make : List (Option Json) → Option (Element → Mutation)}
    (h : mutationOfElement? names body make = some (.ok m)) :
    ∃ fields f element, make fields = some f ∧ m = f element := by
  simp only [mutationOfElement?, Option.bind_eq_bind, Option.bind_eq_some_iff] at h
  obtain ⟨fields, -, h⟩ := h
  split at h
  · simp only [Option.bind_eq_some_iff, Option.pure_def, Option.some.injEq] at h
    obtain ⟨raw, -, f, hf, hm⟩ := h
    cases helement : raw.toElement with
    | error error =>
        rw [helement] at hm
        cases hm
    | ok element =>
        rw [helement] at hm
        exact ⟨_, f, element, hf, (Except.ok.inj hm).symm⟩
  · cases h

theorem exists_two_numbers {first second : Option Json} {g : Float → Float → Element → Mutation}
    {f : Element → Mutation}
    (h : ((Json.required? Json.float? first).bind fun a =>
      (Json.required? Json.float? second).bind fun b => some (g a b)) = some f) :
    ∃ a b, f = g a b ∧ a.isFinite = true ∧ b.isFinite = true := by
  simp only [Option.bind_eq_some_iff, Option.some.injEq] at h
  obtain ⟨a, ha, b, hb, rfl⟩ := h
  exact ⟨a, b, rfl, Json.isFinite_of_required? ha, Json.isFinite_of_required? hb⟩

/-- Numbers that could be read are finite; the far corner of a region is added up from two of them. -/
theorem isDecoded_of_mutationOfJson? {json : Json} {m : Mutation}
    (h : mutationOfJson? json viewport = some (.ok m)) : m.IsDecoded viewport := by
  simp only [mutationOfJson?, Option.bind_eq_bind, Option.bind_eq_some_iff] at h
  obtain ⟨⟨tag, body⟩, -, h⟩ := h
  dsimp only at h
  -- by the tag: rename, move, setLabel, resizeRegion, setPipelineRange, setAnnotationText
  split at h
  · obtain ⟨fields, f, element, hf, rfl⟩ := exists_of_mutationOfElement? h
    split at hf
    · obtain ⟨newName, -, hmake⟩ := Option.bind_eq_some_iff.mp hf
      obtain rfl := Option.some.inj hmake
      exact trivial
    · cases hf
  · obtain ⟨fields, f, element, hf, rfl⟩ := exists_of_mutationOfElement? h
    split at hf
    · obtain ⟨a, b, rfl, ha, hb⟩ := exists_two_numbers (g := fun a b => (Mutation.move · ⟨a, b⟩)) hf
      exact ⟨ha, hb⟩
    · cases hf
  · obtain ⟨fields, f, element, hf, rfl⟩ := exists_of_mutationOfElement? h
    split at hf
    · obtain ⟨a, b, rfl, ha, hb⟩ := exists_two_numbers (g := fun a b => (Mutation.setLabel · ⟨a, b⟩)) hf
      exact ⟨ha, hb⟩
    · cases hf
  · obtain ⟨fields, f, element, hf, rfl⟩ := exists_of_mutationOfElement? h
    split at hf
    · obtain ⟨bounds, hbounds, hmake⟩ := Option.bind_eq_some_iff.mp hf
      obtain ⟨json, -, hjson⟩ := Option.bind_eq_some_iff.mp hbounds
      obtain rfl := Option.some.inj hmake
      exact ⟨rfl, exists_ofSize_of_boundsOfJson? hjson⟩
    · cases hf
  · obtain ⟨fields, f, element, hf, rfl⟩ := exists_of_mutationOfElement? h
    split at hf
    · obtain ⟨a, b, rfl, ha, hb⟩ := exists_two_numbers (g := fun a b => (Mutation.setRange · a b)) hf
      exact ⟨ha, hb⟩
    · cases hf
  · obtain ⟨fields, -, hfields⟩ := Option.bind_eq_some_iff.mp h
    split at hfields
    · simp only [Option.bind_eq_some_iff, Option.pure_def, Option.some.injEq, Except.ok.injEq] at hfields
      obtain ⟨line, -, text, -, rfl⟩ := hfields
      exact trivial
    · cases hfields
  · cases h

/-- All numbers of a request are finite, before the size of bounds is added to their corner. -/
theorem isDecoded_of_mutation {request : Text} {m : Mutation} (h : mutation request viewport = .ok m) :
    m.IsDecoded viewport := by
  unfold mutation at h
  dsimp only at h
  generalize hjson : (Json.ofText? request).filter _ = decoded at h
  cases decoded with
  | none => cases h
  | some json =>
      cases hmutation : mutationOfJson? json viewport with
      | none =>
          rw [Option.bind_some, hmutation] at h
          cases h
      | some result =>
          rw [Option.bind_some, hmutation, Option.getD_some] at h
          exact isDecoded_of_mutationOfJson? (hmutation.trans (congrArg some h))

end Request

end WardleyMap
