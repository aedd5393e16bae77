import IsaLogic.Term.Param

/-!
# What comparisons say of each other is true

`Comparison.implies?` compares two comparisons without a value at hand. Whatever it
finds holds at every value: listed values are tried one by one, and an ordering is
the set of integers in its interval (`test_iff_interval`).
-/

namespace IsaLogic

namespace Comparison

namespace Interval

theorem contains_iff {range : Interval} {n : Int} :
    range.contains n = true ↔
      (∀ low, range.low = some low → low ≤ n) ∧ ∀ high, range.high = some high → n ≤ high := by
  obtain ⟨low, high⟩ := range
  cases low <;> cases high <;> simp [contains]

/-- An interval whose ends lie in another one lies in it. -/
theorem contains_of_within {inner outer : Interval} (within : inner.within outer = true) {n : Int}
    (inside : inner.contains n = true) : outer.contains n = true := by
  obtain ⟨innerLow, innerHigh⟩ := inner
  obtain ⟨outerLow, outerHigh⟩ := outer
  simp only [Interval.within, Bool.and_eq_true] at within
  rw [contains_iff] at inside ⊢
  constructor
  · intro low isLow
    subst isLow
    cases innerLow with
    | none => cases within.1
    | some bound =>
      have first := of_decide_eq_true within.1
      have second := inside.1 bound rfl
      omega
  · intro high isHigh
    subst isHigh
    cases innerHigh with
    | none => cases within.2
    | some bound =>
      have first := of_decide_eq_true within.2
      have second := inside.2 bound rfl
      omega

theorem not_contains_of_before {left right : Interval} (before : left.before right = true) {n : Int}
    (inLeft : left.contains n = true) : ¬ right.contains n = true := by
  intro inRight
  rw [contains_iff] at inLeft inRight
  unfold Interval.before at before
  split at before
  · rename_i high low isHigh isLow
    have apart := of_decide_eq_true before
    have upper := inLeft.2 high isHigh
    have lower := inRight.1 low isLow
    omega
  · cases before

/-- Intervals of which one ends before the other starts have no integer in common. -/
theorem not_contains_of_disjoint {left right : Interval} (disjoint : left.disjoint right = true)
    {n : Int} (inLeft : left.contains n = true) : right.contains n = false := by
  rw [← Bool.not_eq_true]
  rcases Bool.or_eq_true_iff.mp disjoint with first | second
  · exact not_contains_of_before first inLeft
  · exact fun inRight => not_contains_of_before second inRight inLeft

end Interval

theorem test_eq_contains_of_values? {comparison : Comparison} {values : List ParamValue}
    (listed : comparison.values? = some values) (value : ParamValue) :
    comparison.test value = values.contains value := by
  cases comparison with
  | equal operand =>
    cases listed
    rw [Bool.eq_iff_iff]
    simp [test]
  | oneOf operands =>
    cases listed
    cases value <;> rfl
  | _ => cases listed

/-- An ordering holds of the integers in its interval and of nothing else. -/
theorem test_iff_interval {comparison : Comparison} {range : Interval}
    (ordering : comparison.interval? = some range) (value : ParamValue) :
    comparison.test value = true ↔ ∃ n : Int64, value = .int n ∧ range.contains n.toInt = true := by
  cases comparison with
  | equal operand =>
    cases operand with
    | int bound =>
      cases ordering
      simp only [test, beq_iff_eq, Interval.contains_iff, Option.some.injEq, forall_eq']
      constructor
      · rintro rfl
        exact ⟨bound, rfl, Int.le_refl _, Int.le_refl _⟩
      · rintro ⟨n, rfl, atLeast, atMost⟩
        rw [Int64.toInt_inj.mp (Int.le_antisymm atMost atLeast)]
    | _ => cases ordering
  | lessThan bound =>
    cases ordering
    cases value with
    | int n =>
      have strictly : n < bound ↔ n.toInt ≤ bound.toInt - 1 :=
        Int64.lt_iff_toInt_lt.trans Int.le_sub_one_iff.symm
      simp [test, Interval.contains, strictly]
    | _ => simp [test]
  | atMost bound =>
    cases ordering
    cases value <;> simp [test, Interval.contains, Int64.le_iff_toInt_le]
  | greaterThan bound =>
    cases ordering
    cases value with
    | int n =>
      have strictly : bound < n ↔ bound.toInt + 1 ≤ n.toInt :=
        Int64.lt_iff_toInt_lt.trans Int.add_one_le_iff.symm
      simp [test, Interval.contains, strictly]
    | _ => simp [test]
  | atLeast bound =>
    cases ordering
    cases value <;> simp [test, Interval.contains, Int64.le_iff_toInt_le]
  | _ => cases ordering

theorem impliesByValues_sound {values : List ParamValue} {other : Comparison} {agrees : Bool}
    (stated : impliesByValues values other = some agrees) {value : ParamValue}
    (listed : value ∈ values) : other.test value = agrees := by
  unfold impliesByValues at stated
  split at stated
  · cases stated
  · split at stated
    · rename_i allHold
      cases stated
      exact List.all_eq_true.mp allHold value listed
    · split at stated
      · cases stated
      · rename_i noneHolds
        cases stated
        exact Bool.eq_false_iff.mpr fun holds => noneHolds (List.any_eq_true.mpr ⟨value, listed, holds⟩)

theorem impliesByInterval_sound {range : Interval} {other : Comparison} {agrees : Bool}
    (stated : impliesByInterval range other = some agrees) {n : Int64}
    (inside : range.contains n.toInt = true) : other.test (.int n) = agrees := by
  unfold impliesByInterval at stated
  split at stated
  · rename_i theirs ordering
    have exact := test_iff_interval ordering (.int n)
    split at stated
    · rename_i within
      cases stated
      exact exact.mpr ⟨n, rfl, Interval.contains_of_within within inside⟩
    · split at stated
      · rename_i disjoint
        cases stated
        refine Bool.eq_false_iff.mpr fun holds => ?_
        obtain ⟨_, ⟨⟩, contained⟩ := exact.mp holds
        rw [Interval.not_contains_of_disjoint disjoint inside] at contained
        cases contained
      · cases stated
  · split at stated
    · rename_i w
      split at stated
      · cases stated
      · rename_i outside
        cases stated
        simp only [test, bne_iff_ne, ne_eq, ParamValue.int.injEq]
        rintro rfl
        exact outside inside
    · dsimp only at stated
      split at stated
      · rename_i allOutside
        cases stated
        refine Bool.eq_false_iff.mpr fun holds => ?_
        have outside := List.all_eq_true.mp allOutside _ (List.contains_iff_mem.mp holds)
        simp [ParamValue.int?, inside] at outside
      · cases stated
    · cases stated

/-- What a comparison says of another holds wherever the comparison does. -/
theorem implies?_sound {ours theirs : Comparison} {agrees : Bool}
    (stated : ours.implies? theirs = some agrees) {value : ParamValue}
    (holds : ours.test value = true) : theirs.test value = agrees := by
  unfold implies? at stated
  split at stated
  · rename_i values _ listed
    rw [test_eq_contains_of_values? listed] at holds
    exact impliesByValues_sound stated (List.contains_iff_mem.mp holds)
  · rename_i range _ ordering
    obtain ⟨n, rfl, inside⟩ := (test_iff_interval ordering value).mp holds
    exact impliesByInterval_sound stated inside
  · split at stated
    · split at stated
      · rename_i same
        cases stated
        subst same
        simpa [test] using holds
      · cases stated
    · cases stated

end Comparison

namespace ParamTerm

/-- What a term says of another holds under every value of the parameter. -/
theorem relation?_sound {term other : ParamTerm} {agrees : Bool}
    (stated : term.relation? other = some agrees) {value : ParamValue}
    (holds : term.evaluate (some value) = .yes) :
    other.name = term.name ∧ (other.evaluate (some value) = .yes ↔ agrees = true) := by
  unfold relation? at stated
  split at stated
  · cases stated
  · rename_i related
    simp only [not_or, Decidable.not_not] at related
    obtain ⟨sameName, sameScope, _⟩ := related
    refine ⟨sameName.symm, ?_⟩
    unfold evaluate at holds ⊢
    dsimp only at holds ⊢
    rw [← sameScope]
    cases selected : term.scope.select? value with
    | none =>
      rw [selected] at holds
      cases holds
    | some part =>
      rw [selected] at holds
      have ours : term.comparison.test part = true := by
        cases truth : term.comparison.test part
        · simp [truth, Verdict.ofBool] at holds
        · rfl
      change Verdict.ofBool (other.comparison.test part) = .yes ↔ _
      rw [Comparison.implies?_sound stated ours]
      cases agrees <;> simp [Verdict.ofBool]

end ParamTerm

end IsaLogic
