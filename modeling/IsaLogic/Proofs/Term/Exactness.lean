import IsaLogic.Database.Expansion
import IsaLogic.Proofs.Term.Relation

/-!
# Between comparisons of integers every relation is found

`Comparison.implies?` looks at two comparisons from outside, so in general it misses some
relations. It misses none between comparisons of integers whose operands leave room for a
smaller and a greater 64-bit integer (`ComparesIntegers`).

There are three kinds of such comparisons (`kinds`): those that list what they admit, the
orderings, and the one that admits all values but one. A list is tried value by value. The
interval of an ordering has the ends that its integers show (`within_of_subset`,
`disjoint_of_apart`), and since it is open to one side it admits an integer that is no
operand. What admits all values but one admits a boolean, and so is implied by none of the
others.
-/

namespace IsaLogic

namespace Comparison

/-- An integer with room for a smaller and a greater one. -/
def IsInner (n : Int64) : Prop := Int64.minValue < n ∧ n < Int64.maxValue

theorem isInner_iff {n : Int64} :
    IsInner n ↔ Int64.minValue.toInt < n.toInt ∧ n.toInt < Int64.maxValue.toInt := by
  rw [IsInner, Int64.lt_iff_toInt_lt, Int64.lt_iff_toInt_lt]

theorem not_isInner_minValue : ¬ IsInner Int64.minValue := fun inner =>
  Int.lt_irrefl _ (isInner_iff.mp inner).1

theorem not_isInner_maxValue : ¬ IsInner Int64.maxValue := fun inner =>
  Int.lt_irrefl _ (isInner_iff.mp inner).2

/-- Comparisons with integers that have room on both sides. Of alternatives there is at least one. -/
def ComparesIntegers : Comparison → Prop
  | equal (.int n) | notEqual (.int n) => IsInner n
  | lessThan n | greaterThan n | atMost n | atLeast n => IsInner n
  | oneOf vs => vs ≠ [] ∧ ∀ v ∈ vs, ∃ n, v = .int n ∧ IsInner n
  | _ => False

namespace Interval

variable {range theirs : Interval}

/-- The least 64-bit integer in an interval that has any. -/
def first (range : Interval) : Int := range.low.getD Int64.minValue.toInt

/-- The greatest 64-bit integer in an interval that has any. -/
def last (range : Interval) : Int := range.high.getD Int64.maxValue.toInt

theorem contains_toInt {n : Int64} :
    range.contains n.toInt = true ↔ range.first ≤ n.toInt ∧ n.toInt ≤ range.last := by
  obtain ⟨low, high⟩ := range
  rw [contains, Bool.and_eq_true]
  refine and_congr ?_ ?_
  · cases low with
    | none => exact iff_of_true rfl (Int64.minValue_le_toInt n)
    | some low => exact decide_eq_true_iff
  · cases high with
    | none => exact iff_of_true rfl (Int64.toInt_le n)
    | some high => exact decide_eq_true_iff

/-- An interval that has an integer, and whose ends leave room for further ones. -/
structure Roomy (range : Interval) : Prop where
  low : ∀ bound, range.low = some bound → Int64.minValue.toInt < bound
  high : ∀ bound, range.high = some bound → bound < Int64.maxValue.toInt
  nonempty : range.first ≤ range.last

namespace Roomy

theorem minValue_le_first (roomy : range.Roomy) : Int64.minValue.toInt ≤ range.first := by
  cases isLow : range.low with
  | none => simp [first, isLow]
  | some bound => simpa [first, isLow] using Int.le_of_lt (roomy.low bound isLow)

theorem last_le_maxValue (roomy : range.Roomy) : range.last ≤ Int64.maxValue.toInt := by
  cases isHigh : range.high with
  | none => simp [last, isHigh]
  | some bound => simpa [last, isHigh] using Int.le_of_lt (roomy.high bound isHigh)

/-- Every integer between the ends is a 64-bit integer in the interval. -/
theorem exists_contains (roomy : range.Roomy) {z : Int} (above : range.first ≤ z)
    (below : z ≤ range.last) : ∃ n : Int64, n.toInt = z ∧ range.contains n.toInt = true := by
  have least : Int64.minValue.toInt ≤ z := Int.le_trans roomy.minValue_le_first above
  have greatest : z ≤ Int64.maxValue.toInt := Int.le_trans below roomy.last_le_maxValue
  have isWord : (Int64.ofIntLE z least greatest).toInt = z := Int64.toInt_ofIntLE ..
  exact ⟨_, isWord, contains_toInt.mpr (by rw [isWord]; exact ⟨above, below⟩)⟩

end Roomy

/-- The ends of an interval show whether all its integers lie in another one. -/
theorem within_of_subset (ours : range.Roomy) (others : theirs.Roomy)
    (subset : ∀ n : Int64, range.contains n.toInt = true → theirs.contains n.toInt = true) :
    range.within theirs = true := by
  have lows : theirs.first ≤ range.first := by
    obtain ⟨n, isFirst, inside⟩ := ours.exists_contains (Int.le_refl _) ours.nonempty
    exact isFirst ▸ (contains_toInt.mp (subset n inside)).1
  have highs : range.last ≤ theirs.last := by
    obtain ⟨n, isLast, inside⟩ := ours.exists_contains ours.nonempty (Int.le_refl _)
    exact isLast ▸ (contains_toInt.mp (subset n inside)).2
  rw [within, Bool.and_eq_true]
  constructor
  · cases isLow : theirs.low with
    | none => rfl
    | some outer =>
      have room := others.low outer isLow
      cases isLow' : range.low with
      | none =>
        simp only [first, isLow, isLow', Option.getD_some, Option.getD_none] at lows
        omega
      | some inner => simpa [first, isLow, isLow'] using lows
  · cases isHigh : theirs.high with
    | none => rfl
    | some outer =>
      have room := others.high outer isHigh
      cases isHigh' : range.high with
      | none =>
        simp only [last, isHigh, isHigh', Option.getD_some, Option.getD_none] at highs
        omega
      | some inner => simpa [last, isHigh, isHigh'] using highs

theorem before_of_last_lt_first (ours : range.Roomy) (others : theirs.Roomy)
    (apart : range.last < theirs.first) : range.before theirs = true := by
  have least := ours.minValue_le_first
  have greatest := others.last_le_maxValue
  have someOurs := ours.nonempty
  have someTheirs := others.nonempty
  cases isHigh : range.high with
  | none =>
    have isLast : range.last = Int64.maxValue.toInt := by simp [last, isHigh]
    omega
  | some high =>
    cases isLow : theirs.low with
    | none =>
      have isFirst : theirs.first = Int64.minValue.toInt := by simp [first, isLow]
      omega
    | some low => simpa [before, isHigh, isLow, last, first] using apart

/-- The ends of two intervals show whether they have an integer in common. -/
theorem disjoint_of_apart (ours : range.Roomy) (others : theirs.Roomy)
    (apart : ∀ n : Int64, range.contains n.toInt = true → ¬ theirs.contains n.toInt = true) :
    range.disjoint theirs = true := by
  rw [disjoint, Bool.or_eq_true]
  by_cases before : range.last < theirs.first
  · exact .inl (before_of_last_lt_first ours others before)
  by_cases after : theirs.last < range.first
  · exact .inr (before_of_last_lt_first others ours after)
  exfalso
  -- the greater of the two first integers is in both intervals
  have someOurs := ours.nonempty
  have someTheirs := others.nonempty
  by_cases order : range.first ≤ theirs.first
  · obtain ⟨n, isFirst, inside⟩ := ours.exists_contains order (by omega)
    exact apart n inside (contains_toInt.mpr (by omega))
  · obtain ⟨n, isFirst, inside⟩ := ours.exists_contains (Int.le_refl _) someOurs
    exact apart n inside (contains_toInt.mpr (by omega))

end Interval

variable {ours theirs comparison : Comparison}

theorem roomy_of_interval? {range : Interval} (integers : comparison.ComparesIntegers)
    (ordering : comparison.interval? = some range) : range.Roomy := by
  cases comparison with
  | equal operand =>
    cases operand with
    | int n =>
      cases ordering
      obtain ⟨above, below⟩ := isInner_iff.mp integers
      exact ⟨fun _ isLow => Option.some.inj isLow ▸ above,
        fun _ isHigh => Option.some.inj isHigh ▸ below, Int.le_refl _⟩
    | _ => cases ordering
  | lessThan n =>
    cases ordering
    obtain ⟨above, below⟩ := isInner_iff.mp integers
    refine ⟨nofun, fun _ isHigh => ?_, ?_⟩
    · cases isHigh
      omega
    · change Int64.minValue.toInt ≤ n.toInt - 1
      omega
  | atMost n =>
    cases ordering
    obtain ⟨above, below⟩ := isInner_iff.mp integers
    exact ⟨nofun, fun _ isHigh => Option.some.inj isHigh ▸ below, Int.le_of_lt above⟩
  | greaterThan n =>
    cases ordering
    obtain ⟨above, below⟩ := isInner_iff.mp integers
    refine ⟨fun _ isLow => ?_, nofun, ?_⟩
    · cases isLow
      omega
    · change n.toInt + 1 ≤ Int64.maxValue.toInt
      omega
  | atLeast n =>
    cases ordering
    obtain ⟨above, below⟩ := isInner_iff.mp integers
    exact ⟨fun _ isLow => Option.some.inj isLow ▸ above, nofun, Int.le_of_lt below⟩
  | _ => cases ordering

/-- The three kinds of comparisons of integers. -/
inductive Kind (comparison : Comparison) : Prop where
  /-- What is admitted is listed. -/
  | listed (values : List ParamValue) (isListed : comparison.values? = some values)
      (some : values ≠ []) (inner : ∀ v ∈ values, ∃ n, v = .int n ∧ IsInner n)
  /-- The admitted integers are an interval, open to one side. -/
  | ordering (range : Interval) (notListed : comparison.values? = none)
      (isOrdering : comparison.interval? = some range) (roomy : range.Roomy)
      (beyond : ∃ n : Int64, ¬ IsInner n ∧ comparison.test (.int n) = true)
  /-- All values are admitted but one. -/
  | allBut (n : Int64) (isAllBut : comparison = notEqual (.int n)) (inner : IsInner n)

theorem kinds (integers : comparison.ComparesIntegers) : Kind comparison := by
  cases comparison with
  | equal operand =>
    cases operand with
    | int n =>
      exact .listed [.int n] rfl (List.cons_ne_nil _ _)
        (List.forall_mem_singleton.mpr ⟨n, rfl, integers⟩)
    | _ => exact integers.elim
  | oneOf vs => exact .listed vs rfl integers.1 integers.2
  | notEqual operand =>
    cases operand with
    | int n => exact .allBut n rfl integers
    | _ => exact integers.elim
  | lessThan n =>
    exact .ordering _ rfl rfl (roomy_of_interval? integers rfl)
      ⟨Int64.minValue, not_isInner_minValue, decide_eq_true integers.1⟩
  | atMost n =>
    exact .ordering _ rfl rfl (roomy_of_interval? integers rfl)
      ⟨Int64.minValue, not_isInner_minValue, decide_eq_true (Int64.le_of_lt integers.1)⟩
  | greaterThan n =>
    exact .ordering _ rfl rfl (roomy_of_interval? integers rfl)
      ⟨Int64.maxValue, not_isInner_maxValue, decide_eq_true integers.2⟩
  | atLeast n =>
    exact .ordering _ rfl rfl (roomy_of_interval? integers rfl)
      ⟨Int64.maxValue, not_isInner_maxValue, decide_eq_true (Int64.le_of_lt integers.2)⟩
  | includes operand => exact integers.elim

section Listed

variable {values : List ParamValue}

theorem implies?_of_listed (isListed : ours.values? = some values) :
    ours.implies? theirs = impliesByValues values theirs := by
  unfold implies?
  rw [isListed]

theorem test_of_listed (isListed : ours.values? = some values) {value : ParamValue} :
    ours.test value = true ↔ value ∈ values := by
  rw [test_eq_contains_of_values? isListed, List.contains_iff_mem]

/-- No integer without room is listed. -/
theorem not_test_of_listed (isListed : ours.values? = some values)
    (inner : ∀ v ∈ values, ∃ n, v = .int n ∧ IsInner n) {n : Int64} (beyond : ¬ IsInner n) :
    ¬ ours.test (.int n) = true := by
  intro admitted
  obtain ⟨_, ⟨⟩, isInner⟩ := inner _ ((test_of_listed isListed).mp admitted)
  exact beyond isInner

/-- A list that another comparison excludes is found to exclude it. -/
theorem implies?_of_listed_apart (isListed : ours.values? = some values) (some : values ≠ [])
    (apart : ∀ value, ours.test value = true → ¬ theirs.test value = true) :
    ours.implies? theirs = .some false := by
  have fails : ∀ value ∈ values, ¬ theirs.test value = true := fun value member =>
    apart value ((test_of_listed isListed).mpr member)
  obtain ⟨value, member⟩ := List.exists_mem_of_ne_nil values some
  rw [implies?_of_listed isListed, impliesByValues, if_neg, if_neg, if_neg]
  · simpa using fails
  · exact fun allHold => fails value member (List.all_eq_true.mp allHold value member)
  · simpa using some

end Listed

theorem implies?_of_ordering {range : Interval} (notListed : ours.values? = none)
    (isOrdering : ours.interval? = some range) :
    ours.implies? theirs = impliesByInterval range theirs := by
  unfold implies?
  rw [notListed, isOrdering]

theorem impliesByInterval_of_ordering {range range' : Interval}
    (isOrdering : theirs.interval? = some range') :
    impliesByInterval range theirs =
      if range.within range' then some true
      else if range.disjoint range' then some false
      else none := by
  unfold impliesByInterval
  rw [isOrdering]

/-- An ordering holds of the integers in its interval. -/
theorem test_of_ordering {range : Interval} (isOrdering : ours.interval? = some range) {n : Int64} :
    ours.test (.int n) = true ↔ range.contains n.toInt = true := by
  rw [test_iff_interval isOrdering]
  constructor
  · rintro ⟨_, ⟨⟩, inside⟩
    exact inside
  · exact fun inside => ⟨n, rfl, inside⟩

theorem test_notEqual {v value : ParamValue} : (notEqual v).test value = true ↔ value ≠ v := by
  simp [test]

/-- A comparison of integers that implies another one is found to imply it. -/
theorem implies?_of_subset (integers : ours.ComparesIntegers) (others : theirs.ComparesIntegers)
    (differ : ours ≠ theirs) (subset : ∀ value, ours.test value = true → theirs.test value = true) :
    ours.implies? theirs = some true := by
  cases kinds integers with
  | listed values isListed some inner =>
    have allHold : values.all theirs.test = true := List.all_eq_true.mpr fun value member =>
      subset value ((test_of_listed isListed).mpr member)
    rw [implies?_of_listed isListed, impliesByValues, if_neg (by simpa using some), if_pos allHold]
  | ordering range notListed isOrdering roomy beyond =>
    obtain ⟨outer, isBeyond, admitted⟩ := beyond
    rw [implies?_of_ordering notListed isOrdering]
    cases kinds others with
    | listed values isListed _ inner =>
      exact absurd (subset _ admitted) (not_test_of_listed isListed inner isBeyond)
    | ordering range' _ isOrdering' roomy' _ =>
      have within : range.within range' = true := by
        refine Interval.within_of_subset roomy roomy' fun n inside => ?_
        exact (test_of_ordering isOrdering').mp (subset _ ((test_of_ordering isOrdering).mpr inside))
      rw [impliesByInterval_of_ordering isOrdering', if_pos within]
    | allBut n isAllBut _ =>
      subst isAllBut
      have outside : ¬ range.contains n.toInt = true := fun inside =>
        test_notEqual.mp (subset _ ((test_of_ordering isOrdering).mpr inside)) rfl
      exact if_neg outside
  | allBut n isAllBut _ =>
    subst isAllBut
    have boolean : theirs.test (.bool true) = true := subset _ (test_notEqual.mpr nofun)
    cases kinds others with
    | listed values isListed _ inner =>
      obtain ⟨_, ⟨⟩, _⟩ := inner _ ((test_of_listed isListed).mp boolean)
    | ordering range' _ isOrdering' _ _ =>
      obtain ⟨_, ⟨⟩, _⟩ := (test_iff_interval isOrdering' _).mp boolean
    | allBut m isAllBut' _ =>
      subst isAllBut'
      refine absurd (subset (.int m) (test_notEqual.mpr fun same => differ ?_)) ?_
      · rw [same]
      · exact fun admitted => test_notEqual.mp admitted rfl

/-- Of comparisons of integers that exclude each other, one is found to exclude the other. -/
theorem implies?_of_apart (integers : ours.ComparesIntegers) (others : theirs.ComparesIntegers)
    (apart : ∀ value, ours.test value = true → ¬ theirs.test value = true) :
    ours.implies? theirs = some false ∨ theirs.implies? ours = some false := by
  have mirrored : ∀ value, theirs.test value = true → ¬ ours.test value = true :=
    fun value inTheirs inOurs => apart value inOurs inTheirs
  -- an integer without room is admitted by what admits all but an integer with room
  have beyondAllBut : ∀ {n m : Int64}, ¬ IsInner m → IsInner n →
      (notEqual (.int n)).test (.int m) = true := by
    intro n m beyond inner
    refine test_notEqual.mpr fun same => beyond ?_
    cases same
    exact inner
  cases kinds integers with
  | listed values isListed some _ => exact .inl (implies?_of_listed_apart isListed some apart)
  | ordering range notListed isOrdering roomy beyond =>
    obtain ⟨outer, isBeyond, admitted⟩ := beyond
    cases kinds others with
    | listed values isListed some _ => exact .inr (implies?_of_listed_apart isListed some mirrored)
    | ordering range' _ isOrdering' roomy' _ =>
      have noCommon : ∀ n : Int64, range.contains n.toInt = true →
          ¬ range'.contains n.toInt = true := fun n inside inside' =>
        apart _ ((test_of_ordering isOrdering).mpr inside) ((test_of_ordering isOrdering').mpr inside')
      have notWithin : ¬ range.within range' = true := by
        intro within
        obtain ⟨n, _, inside⟩ := roomy.exists_contains (Int.le_refl _) roomy.nonempty
        exact noCommon n inside (Interval.contains_of_within within inside)
      left
      rw [implies?_of_ordering notListed isOrdering, impliesByInterval_of_ordering isOrdering',
        if_neg notWithin, if_pos (Interval.disjoint_of_apart roomy roomy' noCommon)]
    | allBut n isAllBut inner =>
      subst isAllBut
      exact absurd (beyondAllBut isBeyond inner) (apart _ admitted)
  | allBut n isAllBut inner =>
    subst isAllBut
    cases kinds others with
    | listed values isListed some _ => exact .inr (implies?_of_listed_apart isListed some mirrored)
    | ordering range' _ _ _ beyond =>
      obtain ⟨outer, isBeyond, admitted⟩ := beyond
      exact absurd admitted (apart _ (beyondAllBut isBeyond inner))
    | allBut m isAllBut' _ =>
      subst isAllBut'
      have boolean : ∀ k : Int64, (notEqual (.int k)).test (.bool true) = true :=
        fun k => test_notEqual.mpr nofun
      exact absurd (boolean m) (apart _ (boolean n))

end Comparison

namespace ParamTerm

variable {p q : ParamTerm}

theorem evaluate_ne_maybe (term : ParamTerm) (value : ParamValue) :
    term.evaluate (some value) ≠ .maybe := by
  unfold evaluate
  dsimp only
  split
  · cases term.comparison.test _ <;> nofun
  · nofun

/-- A term on the whole value holds where its comparison does. -/
theorem evaluate_value (whole : p.scope = .value) {value : ParamValue} :
    p.evaluate (some value) = .yes ↔ p.comparison.test value = true := by
  unfold evaluate
  rw [whole]
  change Verdict.ofBool (p.comparison.test value) = .yes ↔ _
  cases p.comparison.test value <;> simp [Verdict.ofBool]

theorem relation?_of_same (differ : p ≠ q) (sameName : p.name = q.name)
    (sameScope : p.scope = q.scope) : p.relation? q = p.comparison.implies? q.comparison := by
  rw [relation?, if_neg]
  simp [differ, sameName, sameScope]

/-- A relation that is found decides the other term wherever the first one holds. -/
theorem evaluate_of_relation? {agrees : Bool} {value : ParamValue}
    (found : p.relation? q = some agrees) (isYes : p.evaluate (some value) = .yes) :
    q.evaluate (some value) = .ofBool agrees := by
  have decided := (relation?_sound found isYes).2
  cases agrees with
  | true => exact decided.mpr rfl
  | false =>
    cases verdict : q.evaluate (some value) with
    | yes => cases decided.mp verdict
    | no => rfl
    | maybe => exact absurd verdict (q.evaluate_ne_maybe value)

section Exact

variable (differ : p ≠ q) (sameName : p.name = q.name) (whole : p.scope = .value)
  (whole' : q.scope = .value) (integers : p.comparison.ComparesIntegers)
  (others : q.comparison.ComparesIntegers)

include differ sameName whole whole' integers others

theorem relation?_of_subset
    (subset : ∀ value, p.evaluate (some value) = .yes → q.evaluate (some value) = .yes) :
    p.relation? q = some true := by
  have sameScope : p.scope = q.scope := whole.trans whole'.symm
  have comparisonsDiffer : p.comparison ≠ q.comparison := by
    intro sameComparison
    obtain ⟨name, scope, comparison⟩ := p
    obtain ⟨name', scope', comparison'⟩ := q
    dsimp only at sameName sameScope sameComparison
    exact differ (by rw [sameName, sameScope, sameComparison])
  rw [relation?_of_same differ sameName sameScope]
  refine Comparison.implies?_of_subset integers others comparisonsDiffer fun value admitted => ?_
  exact (evaluate_value whole').mp (subset value ((evaluate_value whole).mpr admitted))

theorem relation?_of_apart
    (apart : ∀ value, ¬ (p.evaluate (some value) = .yes ∧ q.evaluate (some value) = .yes)) :
    p.relation? q = some false ∨ q.relation? p = some false := by
  have sameScope : p.scope = q.scope := whole.trans whole'.symm
  rw [relation?_of_same differ sameName sameScope,
    relation?_of_same differ.symm sameName.symm sameScope.symm]
  refine Comparison.implies?_of_apart integers others fun value inP inQ => ?_
  exact apart value ⟨(evaluate_value whole).mpr inP, (evaluate_value whole').mpr inQ⟩

end Exact

/-- The formula says which of the two relations was found. -/
theorem relation?_eq_some_iff (agrees : Bool) :
    Database.relation? p q = some (.implies (.atom (.parameter p))
      (if agrees then .atom (.parameter q) else .neg (.atom (.parameter q)))) ↔
      p.relation? q = some agrees := by
  rw [Database.relation?, Option.map_eq_some_iff]
  constructor
  · rintro ⟨found, isFound, same⟩
    rw [isFound]
    cases found <;> cases agrees <;> first | rfl | cases same
  · exact fun isFound => ⟨agrees, isFound, rfl⟩

/-- The relations that are found between terms on one parameter are true at every value, and
between two comparisons of the whole value with integers that leave room on both sides each true
relation is found: an implication as such, and an exclusion from one of its two sides. -/
theorem relation_sound_and_exact :
    let holds := fun term : ParamTerm => Formula.atom (.parameter term)
    (∀ (p q : ParamTerm) (value : ParamValue), p.evaluate (some value) = .yes →
      (Database.relation? p q = some (.implies (holds p) (holds q)) →
        q.evaluate (some value) = .yes) ∧
      (Database.relation? p q = some (.implies (holds p) (.neg (holds q))) →
        q.evaluate (some value) = .no)) ∧
    ∀ p q : ParamTerm, p ≠ q → p.name = q.name → p.scope = .value → q.scope = .value →
      p.comparison.ComparesIntegers → q.comparison.ComparesIntegers →
      ((∀ value, p.evaluate (some value) = .yes → q.evaluate (some value) = .yes) →
        Database.relation? p q = some (.implies (holds p) (holds q))) ∧
      ((∀ value, ¬ (p.evaluate (some value) = .yes ∧ q.evaluate (some value) = .yes)) →
        Database.relation? p q = some (.implies (holds p) (.neg (holds q))) ∨
        Database.relation? q p = some (.implies (holds q) (.neg (holds p)))) := by
  intro holds
  refine ⟨fun p q value isYes => ⟨fun found => ?_, fun found => ?_⟩,
    fun p q differ sameName whole whole' integers others => ⟨fun subset => ?_, fun apart => ?_⟩⟩
  · exact evaluate_of_relation? ((relation?_eq_some_iff true).mp found) isYes
  · exact evaluate_of_relation? ((relation?_eq_some_iff false).mp found) isYes
  · refine (relation?_eq_some_iff true).mpr ?_
    exact relation?_of_subset differ sameName whole whole' integers others subset
  · rcases relation?_of_apart differ sameName whole whole' integers others apart with found | found
    · exact .inl ((relation?_eq_some_iff false).mpr found)
    · exact .inr ((relation?_eq_some_iff false).mpr found)

/-- Less than five is at most four. All but three excludes the list of three, which only the list
shows. -/
theorem relation_sound_and_exact_neighbours :
    let holds := fun term : ParamTerm => Formula.atom (.parameter term)
    let below : ParamTerm := ⟨"P", .value, .lessThan 5⟩
    let upTo : ParamTerm := ⟨"P", .value, .atMost 4⟩
    let other : ParamTerm := ⟨"P", .value, .notEqual (.int 3)⟩
    let three : ParamTerm := ⟨"P", .value, .oneOf [.int 3]⟩
    (below ≠ upTo ∧ below.comparison.ComparesIntegers ∧ upTo.comparison.ComparesIntegers ∧
      (∀ value, below.evaluate (some value) = .yes → upTo.evaluate (some value) = .yes) ∧
      Database.relation? below upTo = some (.implies (holds below) (holds upTo))) ∧
    (other ≠ three ∧ other.comparison.ComparesIntegers ∧ three.comparison.ComparesIntegers ∧
      (∀ value, ¬ (other.evaluate (some value) = .yes ∧ three.evaluate (some value) = .yes)) ∧
      (Database.relation? other three = some (.implies (holds other) (.neg (holds three))) ∨
        Database.relation? three other = some (.implies (holds three) (.neg (holds other))))) ∧
    below.evaluate (some (.int 4)) = .yes ∧ upTo.evaluate (some (.int 4)) = .yes := by
  intro holds below upTo other three
  obtain ⟨sound, exact⟩ := relation_sound_and_exact
  have inner : ∀ n : Int64, n = 3 ∨ n = 4 ∨ n = 5 → Comparison.IsInner n := by
    rintro n (rfl | rfl | rfl) <;> exact ⟨by decide, by decide⟩
  have subset : ∀ value, below.evaluate (some value) = .yes → upTo.evaluate (some value) = .yes := by
    intro value isBelow
    rw [evaluate_value rfl] at isBelow ⊢
    cases value with
    | int n =>
      have less := Int64.lt_iff_toInt_lt.mp (of_decide_eq_true isBelow)
      refine decide_eq_true (Int64.le_iff_toInt_le.mpr ?_)
      change n.toInt ≤ 4
      change n.toInt < 5 at less
      omega
    | _ => cases isBelow
  have apart : ∀ value,
      ¬ (other.evaluate (some value) = .yes ∧ three.evaluate (some value) = .yes) := by
    rintro value ⟨isOther, isThree⟩
    rw [evaluate_value rfl] at isOther isThree
    have listed := (@Comparison.test_of_listed three.comparison _ rfl _).mp isThree
    exact Comparison.test_notEqual.mp isOther (List.mem_singleton.mp listed)
  have integers : below.comparison.ComparesIntegers ∧ upTo.comparison.ComparesIntegers ∧
      other.comparison.ComparesIntegers ∧ three.comparison.ComparesIntegers :=
    ⟨inner 5 (by simp), inner 4 (by simp), inner 3 (by simp), List.cons_ne_nil _ _,
      List.forall_mem_singleton.mpr ⟨3, rfl, inner 3 (by simp)⟩⟩
  have ordered := (exact below upTo (by decide) rfl rfl rfl integers.1 integers.2.1).1 subset
  have excluded := (exact other three (by decide) rfl rfl rfl integers.2.2.1 integers.2.2.2).2 apart
  have holding : below.evaluate (some (.int 4)) = .yes := by decide
  exact ⟨⟨by decide, integers.1, integers.2.1, subset, ordered⟩,
    ⟨by decide, integers.2.2.1, integers.2.2.2, apart, excluded⟩, holding,
    (sound below upTo (.int 4) holding).1 ordered⟩

end ParamTerm

end IsaLogic
