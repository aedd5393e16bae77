import Mathlib.Algebra.Group.Nat.Defs
import IsaLogic.Cover.Prime
import IsaLogic.Proofs.Cover.Cube
import IsaLogic.Proofs.Formula.NormalForm

/-!
# Prime covers describe their formula

Assignments are counted in binary, so a number stands for a point (`pointOf`) and a
point for a number (`numberOf`), and the numbers in a truth table are those of the points
that a two-level form covers.
On numbers, implicants cover what their merge covers; merging therefore loses no
number, whatever the number of rounds, and picking goes on until every number is
covered. Both the prime cover and the cover by single points describe the formula
of their truth table.
-/

namespace IsaLogic

/-- The point that a number stands for, its most significant digit first. -/
def pointOf (width m : Nat) : List Bool :=
  (List.range width).map fun i => m.testBit (width - 1 - i)

/-- The number that a point spells in binary, its first value the most significant digit. -/
def numberOf (point : List Bool) : Nat := (BitVec.ofBoolListBE point).toNat

section Points

theorem pointOf_succ (width m : Nat) :
    pointOf (width + 1) m = m.testBit width :: pointOf width m := by
  rw [pointOf, pointOf, List.range_succ_eq_map, List.map_cons, List.map_map]
  refine congrArg _ (List.map_congr_left fun i _ => ?_)
  have sameDigit : width + 1 - 1 - (i + 1) = width - 1 - i := by omega
  exact congrArg m.testBit sameDigit

theorem pointOf_two_pow_add (width m : Nat) : pointOf width (2 ^ width + m) = pointOf width m := by
  refine List.map_congr_left fun i member => ?_
  have inside : i < width := List.mem_range.mp member
  exact Nat.testBit_two_pow_add_gt (by omega) m

theorem pointOf_inj {width m k : Nat} (belowM : m < 2 ^ width) (belowK : k < 2 ^ width)
    (same : pointOf width m = pointOf width k) : m = k := by
  refine Nat.eq_of_testBit_eq fun i => ?_
  by_cases inside : i < width
  · have digit := List.map_inj_left.mp same (width - 1 - i) (List.mem_range.mpr (by omega))
    rwa [show width - 1 - (width - 1 - i) = i by omega] at digit
  · have large : 2 ^ width ≤ 2 ^ i := Nat.pow_le_pow_right (by omega) (by omega)
    rw [Nat.testBit_lt_two_pow (by omega), Nat.testBit_lt_two_pow (by omega)]

theorem numberOf_lt (point : List Bool) : numberOf point < 2 ^ point.length :=
  (BitVec.ofBoolListBE point).isLt

/-- The digits of its number are the values of a point. -/
theorem pointOf_numberOf (point : List Bool) : pointOf point.length (numberOf point) = point := by
  refine List.ext_getElem (by simp [pointOf]) fun i _ inside => ?_
  have sameDigit : point.length - 1 - (point.length - 1 - i) = i := by omega
  have isDigit : point.length - 1 - i < point.length := by omega
  simp [pointOf, numberOf, BitVec.testBit_toNat, BitVec.getLsbD_ofBoolListBE, sameDigit, isDigit,
    inside]

/-- A point is that of its own number and of no other. -/
theorem pointOf_eq_iff {width m : Nat} (below : m < 2 ^ width) {point : List Bool}
    (isPoint : point.length = width) : pointOf width m = point ↔ m = numberOf point := by
  subst isPoint
  constructor
  · intro spelled
    exact pointOf_inj below (numberOf_lt point) (spelled.trans (pointOf_numberOf point).symm)
  · rintro rfl
    exact pointOf_numberOf point

/-- Every point has a number. -/
theorem exists_pointOf (point : List Bool) :
    ∃ m, m < 2 ^ point.length ∧ pointOf point.length m = point :=
  ⟨numberOf point, numberOf_lt point, pointOf_numberOf point⟩

theorem numberOf_map_lt {α : Type} (value : α → Bool) (inputs : List α) :
    numberOf (inputs.map value) < 2 ^ inputs.length := by
  simpa using numberOf_lt (inputs.map value)

theorem pointOf_numberOf_map {α : Type} (value : α → Bool) (inputs : List α) :
    pointOf inputs.length (numberOf (inputs.map value)) = inputs.map value := by
  simpa using pointOf_numberOf (inputs.map value)

theorem length_allOf (terms : List Term) : (Assignment.allOf terms).length = 2 ^ terms.length := by
  induction terms with
  | nil => rfl
  | cons term terms ih =>
    simp only [Assignment.allOf, List.length_append, List.length_map, ih, List.length_cons,
      Nat.pow_succ]
    omega

/-- The assignments are in the order of the numbers of their points. -/
theorem getElem?_allOf (terms : List Term) {m : Nat} (below : m < 2 ^ terms.length) :
    (Assignment.allOf terms)[m]? = some (terms.zip (pointOf terms.length m)) := by
  induction terms generalizing m with
  | nil =>
    have zero : m = 0 := by simpa using below
    subst zero
    rfl
  | cons term terms ih =>
    have doubled : 2 ^ (term :: terms).length = 2 ^ terms.length + 2 ^ terms.length := by
      rw [List.length_cons, Nat.pow_succ]
      omega
    rw [Assignment.allOf, List.length_cons, pointOf_succ, List.zip_cons_cons]
    by_cases early : m < 2 ^ terms.length
    · rw [List.getElem?_append_left (by simpa [length_allOf] using early), List.getElem?_map,
        ih early, Nat.testBit_lt_two_pow early]
      rfl
    · obtain ⟨rest, rfl⟩ := Nat.exists_eq_add_of_le (Nat.le_of_not_lt early)
      have restBelow : rest < 2 ^ terms.length := by omega
      rw [List.getElem?_append_right (by simp [length_allOf]), List.length_map, length_allOf,
        Nat.add_sub_cancel_left, List.getElem?_map, ih restBelow, Nat.testBit_two_pow_add_eq,
        Nat.testBit_lt_two_pow restBelow, pointOf_two_pow_add]
      rfl

theorem lt_of_getElem?_allOf {terms : List Term} {m : Nat} {assignment : Assignment}
    (found : (Assignment.allOf terms)[m]? = some assignment) : m < 2 ^ terms.length := by
  obtain ⟨inside, _⟩ := List.getElem?_eq_some_iff.mp found
  rwa [length_allOf] at inside

end Points

theorem Assignment.zip_map_eq_ofValuation (valuation : Term → Bool) (terms : List Term) :
    terms.zip (terms.map valuation) = ofValuation valuation terms := by
  have paired : (terms.map id).zip (terms.map valuation) = _ := List.zip_map'
  rwa [List.map_id] at paired

namespace TruthTable

/-- The numbers in a truth table are those of the points that the form covers. -/
theorem mem_points_iff {form : TwoLevel} {f : Formula} {m : Nat} :
    m ∈ (ofFormula f).points form ↔
      ∃ assignment, (Assignment.allOf f.terms)[m]? = some assignment ∧
        f.holds assignment.value = form.covered := by
  cases form <;>
    simp [points, ofFormula, TwoLevel.covered, List.mem_zipIdx_iff_getElem?]

theorem lt_of_mem_points {form : TwoLevel} {f : Formula} {m : Nat}
    (member : m ∈ (ofFormula f).points form) : m < 2 ^ f.terms.length := by
  obtain ⟨assignment, found, _⟩ := mem_points_iff.mp member
  exact lt_of_getElem?_allOf found

theorem mem_points {form : TwoLevel} {f : Formula} {m : Nat} (below : m < 2 ^ f.terms.length)
    {valuation : Term → Bool} (isPoint : pointOf f.terms.length m = f.terms.map valuation) :
    m ∈ (ofFormula f).points form ↔ f.holds valuation = form.covered := by
  have assignment : f.terms.zip (pointOf f.terms.length m) =
      Assignment.ofValuation valuation f.terms := by
    rw [isPoint, Assignment.zip_map_eq_ofValuation]
  have sameTruth : f.holds (Assignment.ofValuation valuation f.terms).value = f.holds valuation :=
    Formula.holds_congr fun t occurs =>
      Assignment.value_ofValuation valuation (Formula.mem_terms.mpr occurs)
  rw [mem_points_iff, getElem?_allOf f.terms below, assignment, ← sameTruth]
  simp

end TruthTable

namespace Implicant

/-- Some implicant covers the number. -/
def Union (implicants : List Implicant) (m : Nat) : Prop :=
  ∃ p ∈ implicants, p.covers m = true

theorem union_append {left right : List Implicant} {m : Nat} :
    Union (left ++ right) m ↔ Union left m ∨ Union right m := by
  simp [Union, or_and_right, exists_or]

theorem union_ascending {implicants : List Implicant} {m : Nat} :
    Union (ascending implicants) m ↔ Union implicants m := by
  simp [Union]

/-- An implicant covers the numbers that have its digits outside of its mask. -/
theorem covers_iff {p : Implicant} {m : Nat} :
    p.covers m = true ↔ ∀ i, p.mask.testBit i = false → m.testBit i = p.value.testBit i := by
  rw [covers, beq_iff_eq]
  constructor
  · intro same i unmasked
    have atDigit := congrArg (Nat.testBit · i) same
    simpa [unmasked] using atDigit
  · intro agrees
    apply Nat.eq_of_testBit_eq
    intro i
    cases masked : p.mask.testBit i
    · simp [masked, agrees i masked]
    · simp [masked]

theorem covers_point {k m : Nat} : (point k).covers m = true ↔ k = m := by
  rw [covers, point, Nat.or_zero, Nat.or_zero, beq_iff_eq]
  exact eq_comm

theorem covers_toCube {width : Nat} {p : Implicant} (value : p.value < 2 ^ width) {m : Nat}
    (below : m < 2 ^ width) :
    (p.toCube width).covers (pointOf width m) = p.covers m := by
  rw [Bool.eq_iff_iff, toCube, pointOf, Cube.covers_map, covers_iff]
  constructor
  · intro agrees i unmasked
    by_cases inside : i < width
    · have entry := agrees (width - 1 - i) (List.mem_range.mpr (by omega))
      have sameDigit : width - 1 - (width - 1 - i) = i := by omega
      have same : p.value.testBit i = m.testBit i := by simpa [sameDigit, unmasked] using entry
      exact same.symm
    · have small : 2 ^ width ≤ 2 ^ i := Nat.pow_le_pow_right (by omega) (by omega)
      rw [Nat.testBit_lt_two_pow (Nat.lt_of_lt_of_le below small),
        Nat.testBit_lt_two_pow (Nat.lt_of_lt_of_le value small)]
  · intro agrees i _
    cases masked : p.mask.testBit (width - 1 - i)
    · simp [masked, agrees _ masked]
    · simp [masked]

/-- Implicants that differ in one digit together cover what their merge covers. -/
theorem covers_merge? {a b merged : Implicant} (found : merge? a b = some merged) (m : Nat) :
    merged.covers m = true ↔ a.covers m = true ∨ b.covers m = true := by
  unfold merge? at found
  dsimp only at found
  split at found
  · rename_i differ
    obtain ⟨sameMask, oneDigit⟩ := differ
    obtain ⟨k, isDigit⟩ := Nat.ne_zero_and_sub_one_eq_zero_iff_isPowerOfTwo.mp oneDigit
    cases found
    have digits : ∀ i, b.value.testBit i = (a.value.testBit i ^^ decide (k = i)) := by
      intro i
      rw [← Nat.testBit_two_pow, ← isDigit, Nat.testBit_xor, ← Bool.xor_assoc, Bool.xor_self,
        Bool.false_xor]
    simp only [covers_iff, isDigit, ← sameMask, Nat.testBit_or, Nat.testBit_and, digits,
      Nat.testBit_two_pow, Bool.or_eq_false_iff, decide_eq_false_iff_not]
    constructor
    · intro agrees
      have elsewhere : ∀ i, a.mask.testBit i = false → k ≠ i →
          m.testBit i = a.value.testBit i := by
        intro i unmasked other
        simpa [other] using agrees i ⟨unmasked, other⟩
      -- The digit that the merge forgets tells which of the two covers the number.
      by_cases likeFirst : m.testBit k = a.value.testBit k
      · refine .inl fun i unmasked => ?_
        by_cases here : k = i
        · exact here ▸ likeFirst
        · exact elsewhere i unmasked here
      · refine .inr fun i unmasked => ?_
        by_cases here : k = i
        · subst here
          rw [decide_eq_true rfl, Bool.xor_true]
          exact Bool.eq_not_of_ne likeFirst
        · simpa [here] using elsewhere i unmasked here
    · rintro (first | second) i ⟨unmasked, other⟩
      · simpa [other] using first i unmasked
      · simpa [other] using second i unmasked
  · cases found

theorem merge?_comm (a b : Implicant) : merge? a b = merge? b a := by
  unfold merge?
  rw [Nat.xor_comm b.value, Nat.and_comm b.value]
  by_cases same : a.mask = b.mask
  · simp [same]
  · simp [same, Ne.symm same]

theorem ne_of_merge? {a b merged : Implicant} (found : merge? a b = some merged) : a ≠ b := by
  rintro rfl
  simp [merge?] at found

/-- One round of merging: what is not prime has been merged with something. -/
theorem union_round (current : List Implicant) (m : Nat) :
    Union (current.filter fun a => current.all fun b => (merge? a b).isNone) m ∨
      Union (ascending ((Formula.pairs current).filterMap fun (a, b) => merge? a b)) m ↔
      Union current m := by
  constructor
  · rintro (⟨p, isPrime, covered⟩ | ⟨merged, isMerged, covered⟩)
    · exact ⟨p, (List.mem_filter.mp isPrime).1, covered⟩
    · obtain ⟨⟨a, b⟩, isPair, found⟩ := List.mem_filterMap.mp (mem_ascending.mp isMerged)
      obtain ⟨isA, isB⟩ := Formula.mem_of_mem_pairs isPair
      rcases (covers_merge? found m).mp covered with first | second
      · exact ⟨a, isA, first⟩
      · exact ⟨b, isB, second⟩
  · rintro ⟨a, isA, covered⟩
    cases isPrime : current.all fun b => (merge? a b).isNone
    · obtain ⟨b, isB, merges⟩ := List.all_eq_false.mp isPrime
      obtain ⟨merged, found⟩ := Option.ne_none_iff_exists'.mp (by simpa using merges)
      have covers := (covers_merge? found m).mpr (.inl covered)
      refine .inr ⟨merged, mem_ascending.mpr (List.mem_filterMap.mpr ?_), covers⟩
      rcases Formula.mem_pairs_of_ne isA isB (ne_of_merge? found) with early | late
      · exact ⟨(a, b), early, found⟩
      · exact ⟨(b, a), late, (merge?_comm b a).trans found⟩
    · exact .inl ⟨a, List.mem_filter.mpr ⟨isA, isPrime⟩, covered⟩

/-- Merging keeps the numbers covered, however many rounds it has. -/
theorem union_primesFrom (rounds : Nat) (current : List Implicant) (m : Nat) :
    Union (primesFrom rounds current) m ↔ Union current m := by
  induction rounds generalizing current with
  | zero => rfl
  | succ rounds ih =>
    rw [← union_round current, ← ih (ascending _)]
    exact union_append

/-- Merging gives no larger values. -/
theorem value_lt_of_primesFrom {bound rounds : Nat} {current : List Implicant}
    (values : ∀ p ∈ current, p.value < bound) :
    ∀ p ∈ primesFrom rounds current, p.value < bound := by
  induction rounds generalizing current with
  | zero => exact values
  | succ rounds ih =>
    intro p member
    rcases List.mem_append.mp member with isPrime | later
    · exact values p (List.mem_filter.mp isPrime).1
    · refine ih (fun merged isMerged => ?_) p later
      obtain ⟨⟨a, b⟩, isPair, found⟩ := List.mem_filterMap.mp (mem_ascending.mp isMerged)
      have bounded := values a (Formula.mem_of_mem_pairs isPair).1
      unfold merge? at found
      dsimp only at found
      split at found
      · cases found
        exact Nat.lt_of_le_of_lt Nat.and_le_left bounded
      · cases found

theorem union_map_point {points : List Nat} {m : Nat} : Union (points.map point) m ↔ m ∈ points := by
  constructor
  · rintro ⟨_, member, covered⟩
    obtain ⟨k, isGiven, rfl⟩ := List.mem_map.mp member
    exact covers_point.mp covered ▸ isGiven
  · intro isGiven
    exact ⟨point m, List.mem_map_of_mem isGiven, covers_point.mpr rfl⟩

/-- The primes of some points cover exactly these. -/
theorem union_primes {points : List Nat} {m : Nat} : Union (primes points) m ↔ m ∈ points := by
  rw [primes, union_ascending, union_primesFrom, union_ascending, union_map_point]

theorem value_lt_of_mem_primes {bound : Nat} {points : List Nat}
    (below : ∀ m ∈ points, m < bound) : ∀ p ∈ primes points, p.value < bound := by
  intro p member
  refine value_lt_of_primesFrom (fun q isPoint => ?_) p (mem_ascending.mp member)
  obtain ⟨m, isGiven, rfl⟩ := List.mem_map.mp (mem_ascending.mp isPoint)
  exact below m isGiven

theorem essentials_subset (primes : List Implicant) (points : List Nat) :
    essentials primes points ⊆ primes := by
  intro p member
  obtain ⟨m, _, found⟩ := List.mem_filterMap.mp (List.mem_eraseDups.mp member)
  split at found
  · rename_i only alone
    cases found
    have isOnly : p ∈ primes.filter (·.covers m) := alone ▸ List.mem_singleton.mpr rfl
    exact (List.mem_filter.mp isOnly).1
  · cases found

theorem eq_nil_of_firstBest? {α : Type} {better : α → α → Bool} {list : List α}
    (noBest : firstBest? better list = none) : list = [] := by
  cases list with
  | nil => rfl
  | cons first rest =>
    rw [firstBest?] at noBest
    split at noBest
    · cases noBest
    · split at noBest <;> cases noBest

theorem gain_le_of_better {n : Nat} {points : List Nat} {p q : Implicant}
    (isBetter : better n points p q = true) : q.gain points ≤ p.gain points := by
  simp only [better, Bool.or_eq_true, decide_eq_true_eq, Bool.and_eq_true, beq_iff_eq] at isBetter
  omega

theorem gain_le_of_not_better {n : Nat} {points : List Nat} {p q : Implicant}
    (notBetter : ¬ better n points p q = true) : p.gain points ≤ q.gain points := by
  simp only [better, Bool.or_eq_true, decide_eq_true_eq] at notBetter
  omega

/-- No candidate gains more than the best one. -/
theorem gain_le_of_firstBest? {n : Nat} {points : List Nat} {candidates : List Implicant}
    {best p : Implicant} (found : firstBest? (better n points) candidates = some best)
    (member : p ∈ candidates) : p.gain points ≤ best.gain points := by
  induction candidates generalizing best with
  | nil => cases member
  | cons first rest ih =>
    rw [firstBest?] at found
    split at found
    · rename_i noRest
      cases found
      cases eq_nil_of_firstBest? noRest
      cases List.mem_singleton.mp member
      exact Nat.le_refl _
    · rename_i restBest foundRest
      have atMost : p = first ∨ p.gain points ≤ restBest.gain points :=
        (List.mem_cons.mp member).imp_right (ih foundRest)
      split at found
      · rename_i isBetter
        cases found
        rcases atMost with rfl | isLess
        · exact gain_le_of_better isBetter
        · exact isLess
      · rename_i notBetter
        cases found
        rcases atMost with rfl | isLess
        · exact Nat.le_refl _
        · exact Nat.le_trans isLess (gain_le_of_not_better notBetter)

/-- Picking ends once the chosen primes cover every point that can be covered, or goes on with
one more prime, that gains most of those not chosen, and the points it leaves. -/
theorem pickGreedily_step (n : Nat) (primes chosen : List Implicant) (points : List Nat) :
    (pickGreedily n primes chosen points = chosen ∧
      ∀ m ∈ points, Union primes m → Union chosen m) ∨
    ∃ pick ∈ primes, pick ∉ chosen ∧ pick.gain points ≠ 0 ∧
      (∀ p ∈ primes, p ∉ chosen → p.gain points ≤ pick.gain points) ∧
      pickGreedily n primes chosen points =
        pickGreedily n primes (chosen ++ [pick]) (pick.uncovered points) := by
  have candidate : ∀ p ∈ primes, p ∉ chosen → p ∈ primes.filter (!chosen.contains ·) :=
    fun p isPrime notChosen => List.mem_filter.mpr ⟨isPrime, by simpa using notChosen⟩
  rw [pickGreedily]
  split
  · rename_i done
    refine .inl ⟨rfl, fun m member => ?_⟩
    rw [List.isEmpty_iff.mp done] at member
    cases member
  · split
    · rename_i noPick
      refine .inl ⟨rfl, fun m _ covered => ?_⟩
      obtain ⟨p, isPrime, covers⟩ := covered
      have allChosen := List.filter_eq_nil_iff.mp (eq_nil_of_firstBest? noPick) p isPrime
      exact ⟨p, by simpa using allChosen, covers⟩
    · rename_i pick found
      split
      · rename_i gains
        refine .inl ⟨rfl, fun m member covered => ?_⟩
        obtain ⟨p, isPrime, covers⟩ := covered
        -- The best candidate gains nothing, so a prime that covers the point is chosen already.
        by_cases isChosen : p ∈ chosen
        · exact ⟨p, isChosen, covers⟩
        · have noGain : p.gain points = 0 :=
            Nat.le_zero.mp (gains ▸ gain_le_of_firstBest? found (candidate p isPrime isChosen))
          exact absurd covers (List.countP_eq_zero.mp noGain m member)
      · rename_i gains
        obtain ⟨isPrime, notChosen⟩ := List.mem_filter.mp (mem_of_firstBest? found)
        exact .inr ⟨pick, isPrime, by simpa using notChosen, gains,
          fun p isP notP => gain_le_of_firstBest? found (candidate p isP notP), rfl⟩

/-- Picking keeps what was chosen, adds primes only, and leaves no point that primes cover. -/
theorem pickGreedily_spec (n : Nat) (primes chosen : List Implicant) (points : List Nat) :
    chosen ⊆ pickGreedily n primes chosen points ∧
      pickGreedily n primes chosen points ⊆ chosen ++ primes ∧
      ∀ m ∈ points, Union primes m → Union (pickGreedily n primes chosen points) m := by
  induction count : points.length using Nat.strongRecOn generalizing chosen points with
  | ind count ih =>
    rcases pickGreedily_step n primes chosen points with
      ⟨ends, covered⟩ | ⟨pick, isPrime, _, gains, _, goesOn⟩
    · rw [ends]
      exact ⟨fun _ member => member, List.subset_append_left _ _, covered⟩
    · have fewer := length_uncovered_lt gains
      obtain ⟨keeps, adds, covers⟩ := ih _ (count ▸ fewer) (chosen ++ [pick]) _ rfl
      rw [goesOn]
      refine ⟨fun p member => keeps (List.mem_append_left _ member), fun p member => ?_,
        fun m member covered => ?_⟩
      · rcases List.mem_append.mp (adds member) with early | prime
        · rcases List.mem_append.mp early with kept | isPick
          · exact List.mem_append_left _ kept
          · exact List.mem_append_right _ (List.mem_singleton.mp isPick ▸ isPrime)
        · exact List.mem_append_right _ prime
      · cases atPick : pick.covers m
        · exact covers m (List.mem_filter.mpr ⟨member, by simp [atPick]⟩) covered
        · exact ⟨pick, keeps (List.mem_append_right _ (List.mem_singleton.mpr rfl)), atPick⟩

theorem selectCover_subset (n : Nat) (primes : List Implicant) (points : List Nat) :
    selectCover n primes points ⊆ primes := by
  intro p member
  have picked := (pickGreedily_spec n primes (essentials primes points) _).2.1
    (List.mem_mergeSort.mp member)
  exact (List.mem_append.mp picked).elim (fun early => essentials_subset primes points early) id

/-- The selected primes cover all of the points that primes cover. -/
theorem union_selectCover {n : Nat} {primes : List Implicant} {points : List Nat} {m : Nat}
    (member : m ∈ points) (covered : Union primes m) : Union (selectCover n primes points) m := by
  obtain ⟨keeps, _, covers⟩ := pickGreedily_spec n primes (essentials primes points)
    ((ascending points).filter fun m => !(essentials primes points).any (·.covers m))
  have picked : Union (pickGreedily n primes (essentials primes points)
      ((ascending points).filter fun m => !(essentials primes points).any (·.covers m))) m := by
    cases atEssentials : (essentials primes points).any (·.covers m)
    · exact covers m (List.mem_filter.mpr ⟨mem_ascending.mpr member, by simp [atEssentials]⟩) covered
    · obtain ⟨p, isEssential, atPoint⟩ := List.any_eq_true.mp atEssentials
      exact ⟨p, keeps isEssential, atPoint⟩
  obtain ⟨p, isPicked, atPoint⟩ := picked
  exact ⟨p, List.mem_mergeSort.mpr isPicked, atPoint⟩

/-- The primes selected for some points cover exactly these. -/
theorem union_selectCover_primes {n : Nat} {points : List Nat} {m : Nat} :
    Union (selectCover n (primes points) points) m ↔ m ∈ points := by
  constructor
  · rintro ⟨p, member, covered⟩
    exact union_primes.mp ⟨p, selectCover_subset _ _ _ member, covered⟩
  · intro member
    exact union_selectCover member (union_primes.mpr member)

/-- As cubes, implicants cover the points of the numbers that they cover. -/
theorem union_map_toCube {width : Nat} {implicants : List Implicant}
    (values : ∀ p ∈ implicants, p.value < 2 ^ width) {m : Nat} (below : m < 2 ^ width) :
    Cube.Union (implicants.map (toCube width)) (pointOf width m) ↔ Union implicants m := by
  constructor
  · rintro ⟨_, member, covered⟩
    obtain ⟨p, isImplicant, rfl⟩ := List.mem_map.mp member
    exact ⟨p, isImplicant, covers_toCube (values p isImplicant) below ▸ covered⟩
  · rintro ⟨p, isImplicant, covered⟩
    exact ⟨_, List.mem_map_of_mem isImplicant,
      (covers_toCube (values p isImplicant) below).trans covered⟩

theorem ofWidth_map_toCube (width : Nat) (implicants : List Implicant) :
    Cube.OfWidth width (implicants.map (toCube width)) := by
  intro cube member
  obtain ⟨p, _, rfl⟩ := List.mem_map.mp member
  simp [toCube]

end Implicant

/-- The prime cover of some numbers covers the points of these and no others. -/
theorem union_primeCover {n : Nat} {points : List Nat} (bounded : ∀ m ∈ points, m < 2 ^ n) {m : Nat}
    (below : m < 2 ^ n) : Cube.Union (primeCover n points) (pointOf n m) ↔ m ∈ points := by
  rw [primeCover, Implicant.union_map_toCube _ below, Implicant.union_selectCover_primes]
  exact fun p member => Implicant.value_lt_of_mem_primes bounded p
    (Implicant.selectCover_subset _ _ _ member)

/-- Implicants that cover the numbers in the truth table of a formula describe it as cubes. -/
theorem Describes.ofImplicants {form : TwoLevel} {f : Formula} {implicants : List Implicant}
    (values : ∀ p ∈ implicants, p.value < 2 ^ f.terms.length)
    (exact : ∀ m, Implicant.Union implicants m ↔ m ∈ (TruthTable.ofFormula f).points form) :
    Describes form f (implicants.map (Implicant.toCube f.terms.length)) where
  width := Implicant.ofWidth_map_toCube _ _
  points valuation := by
    obtain ⟨m, below, isPoint⟩ := exists_pointOf (f.terms.map valuation)
    rw [List.length_map] at below isPoint
    rw [← TruthTable.mem_points below isPoint, ← exact, ← isPoint,
      Implicant.union_map_toCube values below]

/-- The prime cover over the truth table of a formula. -/
theorem describes_primeCover (form : TwoLevel) (f : Formula) :
    Describes form f (primeCover f.terms.length ((TruthTable.ofFormula f).points form)) := by
  refine .ofImplicants (fun p member => ?_) fun m => Implicant.union_selectCover_primes
  exact Implicant.value_lt_of_mem_primes (fun m => TruthTable.lt_of_mem_points) p
    (Implicant.selectCover_subset _ _ _ member)

/-- The cover by the single points of the truth table of a formula. -/
theorem describes_pointCubes (form : TwoLevel) (f : Formula) :
    Describes form f ((TruthTable.ofFormula f).pointCubes form) := by
  have points : (TruthTable.ofFormula f).pointCubes form =
      (((TruthTable.ofFormula f).points form).map Implicant.point).map
        (Implicant.toCube f.terms.length) := by
    rw [List.map_map]
    rfl
  rw [points]
  refine .ofImplicants (fun p member => ?_) fun m => Implicant.union_map_point
  obtain ⟨m, isGiven, rfl⟩ := List.mem_map.mp member
  exact TruthTable.lt_of_mem_points isGiven

end IsaLogic
