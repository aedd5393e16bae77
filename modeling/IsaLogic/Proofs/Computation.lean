import Mathlib.Data.List.Forall2

/-!
# Computations that may fail

What the success or the failure of a computation says of its steps, and what that of a computation
on every element of a list says of the elements.
-/

namespace IsaLogic

section Steps

variable {ε α β : Type} {first : Except ε α}

/-- A computation that succeeds has succeeded at its first step. -/
theorem exists_ok_of_bind {next : α → Except ε β} {result : β}
    (succeeds : (first >>= next) = .ok result) :
    ∃ value, first = .ok value ∧ next value = .ok result := by
  cases first with
  | error failure => cases succeeds
  | ok value => exact ⟨value, rfl, succeeds⟩

theorem exists_ok_of_map {view : α → β} {result : β} (succeeds : first.map view = .ok result) :
    ∃ value, first = .ok value ∧ view value = result := by
  cases first with
  | error failure => cases succeeds
  | ok value => exact ⟨value, rfl, Except.ok.inj succeeds⟩

theorem error_of_map {view : α → β} {failure : ε} (fails : first.map view = .error failure) :
    first = .error failure := by
  cases first with
  | error other => exact congrArg Except.error (Except.error.inj fails)
  | ok value => cases fails

theorem toOption_eq_some {value : α} : first.toOption = some value ↔ first = .ok value := by
  cases first <;> simp [Except.toOption]

/-- A computation fails at its first step or after it. -/
theorem error_of_bind {next : α → Except ε β} {failure : ε}
    (fails : (first >>= next) = .error failure) :
    first = .error failure ∨ ∃ value, next value = .error failure := by
  cases first with
  | error failure =>
    cases fails
    exact .inl rfl
  | ok value => exact .inr ⟨value, fails⟩

theorem error_of_bind_pure {view : α → β} {failure : ε}
    (fails : (first >>= fun value => pure (view value)) = .error failure) :
    first = .error failure := by
  rcases error_of_bind fails with atFirst | ⟨value, never⟩
  · exact atFirst
  · cases never

end Steps

section Traversal

variable {ε α β : Type} {list : List α} {results : List β}

/-- What a computation on every element of a list has found. -/
theorem mem_of_mapM {find : α → Except ε β} (succeeds : list.mapM find = .ok results) {result : β} :
    result ∈ results ↔ ∃ a ∈ list, find a = .ok result := by
  induction list generalizing results with
  | nil =>
    cases succeeds
    simp
  | cons first rest ih =>
    rw [List.mapM_cons] at succeeds
    obtain ⟨found, foundFirst, others⟩ := exists_ok_of_bind succeeds
    obtain ⟨foundRest, isRest, whole⟩ := exists_ok_of_bind others
    cases whole
    simp [ih isRest, foundFirst, eq_comm]

/-- What a computation on every element of a list has found and kept. -/
theorem mem_of_filterMapM {find : α → Except ε (Option β)}
    (succeeds : list.filterMapM find = .ok results) {result : β} :
    result ∈ results ↔ ∃ a ∈ list, find a = .ok (some result) := by
  induction list generalizing results with
  | nil =>
    cases succeeds
    simp
  | cons first rest ih =>
    rw [List.filterMapM_cons] at succeeds
    obtain ⟨found, foundFirst, others⟩ := exists_ok_of_bind succeeds
    cases found with
    | none => simp [ih others, foundFirst]
    | some kept =>
      obtain ⟨foundRest, isRest, whole⟩ := exists_ok_of_bind others
      cases whole
      simp [ih isRest, foundFirst, eq_comm]

/-- A computation on every element of a list succeeds if it does on each. -/
theorem exists_mapM {find : α → Except ε β} (each : ∀ a ∈ list, ∃ result, find a = .ok result) :
    ∃ results, list.mapM find = .ok results := by
  induction list with
  | nil => exact ⟨[], rfl⟩
  | cons first rest ih =>
    obtain ⟨found, foundFirst⟩ := each first (List.mem_cons_self ..)
    obtain ⟨others, foundRest⟩ := ih fun a member => each a (List.mem_cons_of_mem _ member)
    exact ⟨found :: others, by rw [List.mapM_cons, foundFirst, foundRest]; rfl⟩

theorem exists_filterMapM {find : α → Except ε (Option β)}
    (each : ∀ a ∈ list, ∃ result, find a = .ok result) :
    ∃ results, list.filterMapM find = .ok results := by
  induction list with
  | nil => exact ⟨[], rfl⟩
  | cons first rest ih =>
    obtain ⟨found, foundFirst⟩ := each first (List.mem_cons_self ..)
    obtain ⟨others, foundRest⟩ := ih fun a member => each a (List.mem_cons_of_mem _ member)
    rw [List.filterMapM_cons, foundFirst, foundRest]
    cases found <;> exact ⟨_, rfl⟩

/-- A computation on every element of a list succeeds with what it gives for each in turn. -/
theorem mapM_eq_ok_iff {find : α → Except ε β} :
    list.mapM find = .ok results ↔
      List.Forall₂ (fun a result => find a = .ok result) list results := by
  induction list generalizing results with
  | nil =>
    rw [List.forall₂_nil_left_iff]
    exact ⟨fun succeeds => (Except.ok.inj succeeds).symm, fun nothing => nothing ▸ rfl⟩
  | cons first rest ih =>
    rw [List.mapM_cons, List.forall₂_cons_left_iff]
    constructor
    · intro succeeds
      obtain ⟨found, foundFirst, others⟩ := exists_ok_of_bind succeeds
      obtain ⟨foundRest, isRest, whole⟩ := exists_ok_of_bind others
      cases whole
      exact ⟨found, foundRest, foundFirst, ih.mp isRest, rfl⟩
    · rintro ⟨found, foundRest, foundFirst, isRest, rfl⟩
      rw [foundFirst, ih.mpr isRest]
      rfl

/-- Where a computation on every element of a list succeeds, it does on each. -/
theorem exists_ok_of_mapM {find : α → Except ε β} (succeeds : list.mapM find = .ok results) :
    ∀ a ∈ list, ∃ result, find a = .ok result := by
  have each := (mapM_eq_ok_iff.mp succeeds).imp
    fun _ result found => And.intro (Exists.intro result found) found
  exact ((List.forall₂_and_left list results).mp each).1

/-- A computation on every element of a list fails as it does on some element. -/
theorem error_of_mapM {find : α → Except ε β} {failure : ε}
    (fails : list.mapM find = .error failure) : ∃ a ∈ list, find a = .error failure := by
  induction list with
  | nil => cases fails
  | cons first rest ih =>
    rw [List.mapM_cons] at fails
    cases foundFirst : find first with
    | error other =>
      rw [foundFirst] at fails
      cases fails
      exact ⟨first, List.mem_cons_self, foundFirst⟩
    | ok found =>
      rw [foundFirst] at fails
      obtain ⟨a, member, failsHere⟩ := ih (error_of_bind_pure fails)
      exact ⟨a, List.mem_cons_of_mem _ member, failsHere⟩

theorem mapM_eq_map {find : α → Except ε β} {value : α → β}
    (each : ∀ a ∈ list, find a = .ok (value a)) : list.mapM find = .ok (list.map value) := by
  induction list with
  | nil => rfl
  | cons first rest ih =>
    rw [List.mapM_cons, each first (List.mem_cons_self ..),
      ih fun a member => each a (List.mem_cons_of_mem first member)]
    rfl

end Traversal

end IsaLogic
