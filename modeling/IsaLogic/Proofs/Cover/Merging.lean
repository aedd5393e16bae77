import IsaLogic.Proofs.Cover.Primality

/-!
# Merging finds primes

A round of merging starts from all implicants with some sets of unmentioned digits
(`Level`): whatever has the digits of one of them unmentioned and covers no other
numbers is there too. Merging keeps this and leaves one digit more unmentioned. An
implicant that merges with none is therefore prime, since the implicant on the other
side of a digit would be there to merge with. There are as many rounds as digits, so in
the end nothing is left unmerged that has not been seen to be prime.
-/

namespace IsaLogic

namespace Implicant

/-- The implicant on the other side of a digit. -/
def flip (k : Nat) (p : Implicant) : Implicant := { p with value := p.value ^^^ 2 ^ k }

/-- An implicant without digits in its mask that covers only given numbers. -/
structure Implies (points : List Nat) (p : Implicant) : Prop where
  apart : ∀ i, p.mask.testBit i = true → p.value.testBit i = false
  inside : ∀ m, p.covers m = true → m ∈ points

/-- An implicant that covers only given numbers, while the other side of each of its digits does
not. -/
structure Prime (points : List Nat) (p : Implicant) : Prop where
  implies : Implies points p
  needs : ∀ k, p.mask.testBit k = false → ∃ m, (p.flip k).covers m = true ∧ m ∉ points

section Digits

variable {points : List Nat} {p a b merged : Implicant} {k : Nat}

theorem testBit_flip (k i : Nat) (p : Implicant) :
    (p.flip k).value.testBit i = (p.value.testBit i ^^ decide (k = i)) := by
  rw [flip, Nat.testBit_xor, Nat.testBit_two_pow]

/-- Two implicants that merge have one mask and differ in one digit. -/
theorem exists_digit_of_merge? (found : merge? a b = some merged) : ∃ k, b = a.flip k := by
  unfold merge? at found
  dsimp only at found
  split at found
  · rename_i differ
    obtain ⟨sameMask, oneDigit⟩ := differ
    obtain ⟨k, isDigit⟩ := Nat.ne_zero_and_sub_one_eq_zero_iff_isPowerOfTwo.mp oneDigit
    refine ⟨k, ?_⟩
    obtain ⟨mask, value⟩ := b
    cases sameMask
    rw [flip, ← isDigit, ← Nat.xor_assoc, Nat.xor_self, Nat.zero_xor]
  · cases found

/-- An implicant merges with the one on the other side of a digit. -/
theorem merge?_flip (k : Nat) (p : Implicant) :
    merge? p (p.flip k) =
      some { mask := p.mask ||| 2 ^ k, value := p.value &&& (p.flip k).value } := by
  have difference : p.value ^^^ (p.flip k).value = 2 ^ k := by
    rw [flip, ← Nat.xor_assoc, Nat.xor_self, Nat.zero_xor]
  have oneDigit := Nat.ne_zero_and_sub_one_eq_zero_iff_isPowerOfTwo.mpr ⟨k, rfl⟩
  unfold merge?
  dsimp only
  rw [difference, if_pos ⟨rfl, oneDigit⟩]

/-- Where both sides of a digit are implicants, the digit is not in the mask. -/
theorem Implies.unmasked (implies : Implies points p) (other : Implies points (p.flip k)) :
    p.mask.testBit k = false := by
  apply Bool.eq_false_iff.mpr
  intro masked
  have atOther := other.apart k masked
  rw [testBit_flip, implies.apart k masked, decide_eq_true rfl] at atOther
  cases atOther

theorem Implies.value_mem (implies : Implies points p) : p.value ∈ points :=
  implies.inside p.value (covers_iff.mpr fun _ _ => rfl)

/-- Numbers with a given count of digits bound the digits of an implicant. -/
theorem Implies.testBit_of_le {width : Nat} (implies : Implies points p)
    (bounded : ∀ m ∈ points, m < 2 ^ width) {i : Nat} (outside : width ≤ i) :
    p.value.testBit i = false ∧ p.mask.testBit i = false := by
  have largest : p.value ||| p.mask ∈ points := by
    refine implies.inside _ (covers_iff.mpr fun i unmasked => ?_)
    rw [Nat.testBit_or, unmasked, Bool.or_false]
  have small : p.value ||| p.mask < 2 ^ i :=
    Nat.lt_of_lt_of_le (bounded _ largest) (Nat.pow_le_pow_right (by omega) outside)
  have digit := Nat.testBit_lt_two_pow small
  rwa [Nat.testBit_or, Bool.or_eq_false_iff] at digit

/-- Merging the two sides of a digit gives an implicant of the same numbers. -/
theorem Implies.merge (implies : Implies points p) (other : Implies points (p.flip k))
    (found : merge? p (p.flip k) = some merged) : Implies points merged := by
  refine ⟨fun i masked => ?_, fun m covers => ?_⟩
  · rw [merge?_flip] at found
    cases found
    rw [Nat.testBit_or, Nat.testBit_two_pow, Bool.or_eq_true] at masked
    rw [Nat.testBit_and, testBit_flip]
    rcases masked with inMask | isDigit
    · rw [implies.apart i inMask, Bool.false_and]
    · rw [isDigit, Bool.xor_true, Bool.and_not_self]
  · rcases (covers_merge? found m).mp covers with first | second
    · exact implies.inside m first
    · exact other.inside m second

/-- The two sides of a digit that an implicant does not mention. -/
theorem Implies.sides {mask : Nat} (implies : Implies points p) (isMask : p.mask = mask ||| 2 ^ k)
    (fresh : mask.testBit k = false) :
    Implies points { mask, value := p.value } ∧
      Implies points (flip k { mask, value := p.value }) ∧
      merge? { mask, value := p.value } (flip k { mask, value := p.value }) = some p := by
  have masked : ∀ i, p.mask.testBit i = (mask.testBit i || decide (k = i)) := by
    intro i
    rw [isMask, Nat.testBit_or, Nat.testBit_two_pow]
  have elsewhere : ∀ i, mask.testBit i = true → k ≠ i := by
    rintro i inMask rfl
    rw [inMask] at fresh
    cases fresh
  have apart : ∀ i, mask.testBit i = true → p.value.testBit i = false := fun i inMask =>
    implies.apart i (by rw [masked, inMask, Bool.true_or])
  refine ⟨⟨apart, fun m covers => implies.inside m ?_⟩,
    ⟨fun i inMask => ?_, fun m covers => implies.inside m ?_⟩, ?_⟩
  · refine covers_iff.mpr fun i free => covers_iff.mp covers i ?_
    rw [masked, Bool.or_eq_false_iff] at free
    exact free.1
  · rw [testBit_flip, decide_eq_false (elsewhere i inMask), Bool.xor_false]
    exact apart i inMask
  · refine covers_iff.mpr fun i free => ?_
    rw [masked, Bool.or_eq_false_iff] at free
    have atDigit := covers_iff.mp covers i free.1
    rwa [testBit_flip, free.2, Bool.xor_false] at atDigit
  · have digit : p.value.testBit k = false := implies.apart k (by simp [masked])
    have value : p.value &&& (flip k { mask, value := p.value }).value = p.value := by
      apply Nat.eq_of_testBit_eq
      intro i
      rw [Nat.testBit_and, testBit_flip]
      by_cases here : k = i
      · rw [← here, digit, Bool.false_and]
      · rw [decide_eq_false here, Bool.xor_false, Bool.and_self]
    rw [merge?_flip, value, ← isMask]

/-- One more digit is counted. -/
theorem countP_range_succ {width : Nat} {digit : Nat → Bool} (inside : k < width)
    (fresh : digit k = false) :
    (List.range width).countP (fun i => digit i || decide (k = i)) =
      (List.range width).countP digit + 1 := by
  induction width with
  | zero => omega
  | succ width ih =>
    rw [List.range_succ, List.countP_append, List.countP_append, List.countP_singleton,
      List.countP_singleton]
    by_cases last : k = width
    · subst last
      have before : (List.range k).countP (fun i => digit i || decide (k = i)) =
          (List.range k).countP digit := by
        refine List.countP_congr fun i member => ?_
        have below : k ≠ i := by
          have := List.mem_range.mp member
          omega
        simp [below]
      rw [before, fresh]
      simp
    · rw [ih (by omega)]
      simp only [last, decide_false, Bool.or_false]
      omega

theorem freedom_merge {width : Nat} (inside : k < width) (fresh : p.mask.testBit k = false)
    (found : merge? p (p.flip k) = some merged) :
    merged.freedom width = p.freedom width + 1 := by
  rw [merge?_flip] at found
  cases found
  rw [freedom, freedom, ← countP_range_succ inside fresh]
  refine List.countP_congr fun i _ => ?_
  rw [Nat.testBit_or, Nat.testBit_two_pow]

end Digits

theorem freedom_le (width : Nat) (p : Implicant) : p.freedom width ≤ width := by
  simpa [freedom] using List.countP_le_length (l := List.range width)

/-- What merging makes of some implicants in one round. -/
def nextLevel (current : List Implicant) : List Implicant :=
  ascending ((Formula.pairs current).filterMap fun (a, b) => merge? a b)

theorem mem_nextLevel {current : List Implicant} {p : Implicant} :
    p ∈ nextLevel current ↔
      ∃ a k, a ∈ current ∧ a.flip k ∈ current ∧ merge? a (a.flip k) = some p := by
  rw [nextLevel, mem_ascending, List.mem_filterMap]
  constructor
  · rintro ⟨⟨a, b⟩, isPair, found⟩
    obtain ⟨isA, isB⟩ := Formula.mem_of_mem_pairs isPair
    obtain ⟨k, rfl⟩ := exists_digit_of_merge? found
    exact ⟨a, k, isA, isB, found⟩
  · rintro ⟨a, k, isA, isB, found⟩
    rcases Formula.mem_pairs_of_ne isA isB (ne_of_merge? found) with early | late
    · exact ⟨_, early, found⟩
    · exact ⟨_, late, (merge?_comm _ _).trans found⟩

/-- All implicants of some masks, each with the same number of unmentioned digits. -/
structure Level (points : List Nat) (width count : Nat) (current : List Implicant) : Prop where
  implies : ∀ p ∈ current, Implies points p
  closed : ∀ p ∈ current, ∀ q : Implicant, q.mask = p.mask → Implies points q → q ∈ current
  free : ∀ p ∈ current, p.freedom width = count

namespace Level

variable {points : List Nat} {width count : Nat} {current : List Implicant} {p : Implicant}

/-- The points themselves mention every digit. -/
theorem start (points : List Nat) (width : Nat) :
    Level points width 0 (ascending (points.map point)) where
  implies p member := by
    obtain ⟨m, isPoint, rfl⟩ := List.mem_map.mp (mem_ascending.mp member)
    refine ⟨fun i masked => ?_, fun n covers => covers_point.mp covers ▸ isPoint⟩
    rw [point, Nat.zero_testBit] at masked
    cases masked
  closed p member q sameMask implies := by
    obtain ⟨m, _, rfl⟩ := List.mem_map.mp (mem_ascending.mp member)
    have isPoint : q = point q.value := by
      obtain ⟨mask, value⟩ := q
      cases sameMask
      rfl
    rw [isPoint]
    exact mem_ascending.mpr (List.mem_map_of_mem implies.value_mem)
  free p member := by
    obtain ⟨m, _, rfl⟩ := List.mem_map.mp (mem_ascending.mp member)
    simp [freedom, point]

/-- A digit at which two implicants of a level differ. -/
theorem digit {k : Nat} (level : Level points width count current)
    (bounded : ∀ m ∈ points, m < 2 ^ width) (member : p ∈ current) (other : p.flip k ∈ current) :
    k < width ∧ p.mask.testBit k = false := by
  refine ⟨Nat.lt_of_not_le fun outside => ?_,
    (level.implies p member).unmasked (level.implies _ other)⟩
  have low := ((level.implies p member).testBit_of_le bounded outside).1
  have high := ((level.implies _ other).testBit_of_le bounded outside).1
  rw [testBit_flip, low, decide_eq_true rfl] at high
  cases high

/-- Merging leaves one digit more unmentioned. -/
theorem next (level : Level points width count current)
    (bounded : ∀ m ∈ points, m < 2 ^ width) :
    Level points width (count + 1) (nextLevel current) where
  implies p member := by
    obtain ⟨a, k, isA, isB, found⟩ := mem_nextLevel.mp member
    exact (level.implies a isA).merge (level.implies _ isB) found
  closed p member q sameMask implies := by
    obtain ⟨a, k, isA, isB, found⟩ := mem_nextLevel.mp member
    rw [merge?_flip] at found
    cases found
    -- The two sides of the digit have the mask of the round before.
    obtain ⟨low, high, merges⟩ := implies.sides sameMask (level.digit bounded isA isB).2
    have isLow := level.closed a isA { mask := a.mask, value := q.value } rfl low
    have isHigh := level.closed a isA (flip k { mask := a.mask, value := q.value }) rfl high
    exact mem_nextLevel.mpr ⟨_, k, isLow, isHigh, merges⟩
  free p member := by
    obtain ⟨a, k, isA, isB, found⟩ := mem_nextLevel.mp member
    obtain ⟨inside, fresh⟩ := level.digit bounded isA isB
    rw [freedom_merge inside fresh found, level.free a isA]

/-- An implicant that merges with none of its level is prime. -/
theorem prime_of_unmerged (level : Level points width count current) (member : p ∈ current)
    (unmerged : ∀ q ∈ current, merge? p q = none) : Prime points p := by
  refine ⟨level.implies p member, fun k unmasked => ?_⟩
  apply Classical.byContradiction
  intro noneOutside
  have otherImplies : Implies points (p.flip k) := by
    refine ⟨fun i masked => ?_, fun m covers => ?_⟩
    · have differs : k ≠ i := by
        rintro rfl
        rw [show p.mask.testBit k = true from masked] at unmasked
        cases unmasked
      rw [testBit_flip, (level.implies p member).apart i masked]
      simp [differs]
    · exact Classical.byContradiction fun outside => noneOutside ⟨m, covers, outside⟩
  have noMerge := unmerged _ (level.closed p member (p.flip k) rfl otherImplies)
  rw [merge?_flip] at noMerge
  cases noMerge

/-- Everything that merging leaves is prime if there are rounds enough for all digits. -/
theorem prime_of_mem_primesFrom {rounds : Nat} (level : Level points width count current)
    (bounded : ∀ m ∈ points, m < 2 ^ width) (enough : width < count + rounds)
    (member : p ∈ primesFrom rounds current) : Prime points p := by
  induction rounds generalizing count current with
  | zero =>
    have atMost := freedom_le width p
    rw [level.free p member] at atMost
    omega
  | succ rounds ih =>
    rcases List.mem_append.mp member with unmerged | later
    · obtain ⟨isCurrent, noMerge⟩ := List.mem_filter.mp unmerged
      refine level.prime_of_unmerged isCurrent fun q isOther => ?_
      simpa using List.all_eq_true.mp noMerge q isOther
    · exact ih (level.next bounded) (by omega) later

end Level

section Primes

variable {points : List Nat}

theorem lt_two_pow_digits {m : Nat} (member : m ∈ points) :
    m < 2 ^ ((points.map Nat.log2).foldl max 0 + 1) := by
  have atMost : m.log2 ≤ (points.map Nat.log2).foldl max 0 := by
    have largest : ∀ (numbers : List Nat) (start : Nat), ∀ n ∈ start :: numbers,
        n ≤ numbers.foldl max start := by
      intro numbers
      induction numbers with
      | nil => simp
      | cons first numbers ih =>
        intro start n isNumber
        have atStart := ih (max start first) (max start first) (List.mem_cons_self ..)
        rcases List.mem_cons.mp isNumber with rfl | isLater
        · exact Nat.le_trans (Nat.le_max_left ..) atStart
        · rcases List.mem_cons.mp isLater with rfl | isRest
          · exact Nat.le_trans (Nat.le_max_right ..) atStart
          · exact ih (max start first) n (List.mem_cons_of_mem _ isRest)
    exact largest _ 0 _ (List.mem_cons_of_mem _ (List.mem_map_of_mem member))
  exact Nat.lt_of_lt_of_le Nat.lt_log2_self (Nat.pow_le_pow_right (by omega) (by omega))

/-- What merging finds of some points is prime. -/
theorem prime_of_mem_primes {p : Implicant} (member : p ∈ primes points) : Prime points p :=
  (Level.start points _).prime_of_mem_primesFrom (fun _ => lt_two_pow_digits) (by omega)
    (mem_ascending.mp member)

/-- The cube of a prime implicant is prime, in any region of the same points. -/
theorem Prime.toCube {p : Implicant} (prime : Prime points p) {width : Nat}
    (bounded : ∀ m ∈ points, m < 2 ^ width) {region : List Bool → Prop}
    (exact : ∀ m < 2 ^ width, region (pointOf width m) ↔ m ∈ points) :
    Cube.Prime width region (p.toCube width) where
  inside point isPoint lies := by
    obtain ⟨m, below, isNumber⟩ := exists_pointOf point
    rw [isPoint] at below isNumber
    subst isNumber
    rw [covers_toCube (bounded _ prime.implies.value_mem) below] at lies
    exact (exact m below).mpr (prime.implies.inside m lies)
  needs input value isEntry := by
    have entries : ∀ {other : Nat} {sign : Bool}, Cube.entry (p.toCube width) other = some sign →
        other < width ∧ p.mask.testBit (width - 1 - other) = false ∧
          sign = p.value.testBit (width - 1 - other) := by
      intro other sign isSign
      by_cases inside : other < width
      · cases masked : p.mask.testBit (width - 1 - other)
        · have isValue : p.value.testBit (width - 1 - other) = sign := by
            simpa [Cube.entry, Implicant.toCube, inside, masked] using isSign
          exact ⟨inside, rfl, isValue.symm⟩
        · simp [Cube.entry, Implicant.toCube, inside, masked] at isSign
      · simp [Cube.entry, Implicant.toCube, inside] at isSign
    obtain ⟨inside, unmasked, _⟩ := entries isEntry
    obtain ⟨m, covers, outside⟩ := prime.needs _ unmasked
    rw [covers_iff] at covers
    have below : m < 2 ^ width := by
      refine Nat.lt_pow_two_of_testBit m fun i large => ?_
      obtain ⟨noDigit, unmentioned⟩ := prime.implies.testBit_of_le bounded large
      rw [covers i unmentioned, testBit_flip, noDigit, decide_eq_false (by omega)]
      rfl
    refine ⟨pointOf width m, by simp [pointOf], ?_,
      fun isInside => outside ((exact m below).mp isInside)⟩
    rw [Cube.covers_iff (by simp [pointOf, Implicant.toCube])]
    intro other sign isSign
    by_cases same : input = other
    · rw [← same, Cube.entry_set_self] at isSign
      cases isSign
    · rw [Cube.entry_set_ne same] at isSign
      obtain ⟨isInput, free, rfl⟩ := entries isSign
      have digit := covers _ free
      rw [testBit_flip, decide_eq_false (by omega), Bool.xor_false] at digit
      simp [pointOf, isInput, digit]

end Primes

end Implicant

/-- Every cube of a prime cover is prime. -/
theorem prime_of_mem_primeCover {n : Nat} {points : List Nat} (bounded : ∀ m ∈ points, m < 2 ^ n)
    {cube : Cube} (member : cube ∈ primeCover n points) :
    Cube.Prime n (Cube.Union (primeCover n points)) cube := by
  obtain ⟨p, isPicked, rfl⟩ := List.mem_map.mp member
  have isPrime := Implicant.selectCover_subset _ _ _ isPicked
  exact (Implicant.prime_of_mem_primes isPrime).toCube bounded fun m => union_primeCover bounded

end IsaLogic
