import Mathlib
import IsaLogic.Proofs.Cover.Exactness

/-!
# How far a prime cover is from the smallest

Every cube of a cover of some numbers lies inside a prime of them
(`ExactCover.exists_prime`). So a cover has a cube of its own for each essential prime,
and its other cubes cover what the essential primes leave (`ExactCover.exists_rest`).

These others bound the picking. While they cover the numbers left, some prime gains at
least its share of them, and the prime that is picked gains no less (`Picking.step`).
The number of picks is therefore at most a harmonic number times the number of the
others, and no more than the others if there is at most one of them. A prime cover is
smallest if it has at most two primes that are not essential.

It is not smallest in general: six of the eight points of three inputs, in a ring where
each prime covers two neighbours, have a cover by three cubes and get one by four.
-/

namespace IsaLogic

namespace Implicant

section Gains

variable {points : List Nat} {p : Implicant}

theorem length_eq_gain_add (p : Implicant) (points : List Nat) :
    points.length = p.gain points + (p.uncovered points).length := by
  rw [gain, uncovered, ← List.countP_eq_length_filter]
  simpa using points.length_eq_countP_add_countP p.covers

theorem gain_uncovered_le (p q : Implicant) (points : List Nat) :
    p.gain (q.uncovered points) ≤ p.gain points :=
  List.filter_sublist.countP_le

theorem gain_uncovered_self (p : Implicant) (points : List Nat) :
    p.gain (p.uncovered points) = 0 := by
  refine List.countP_eq_zero.mpr fun m member => ?_
  simpa using (List.mem_filter.mp member).2

/-- A cover gains no more numbers than the largest gain for each of its implicants. -/
theorem length_le_gains {cover : List Implicant} {most : Nat}
    (covered : ∀ m ∈ points, Union cover m) (gains : ∀ p ∈ cover, p.gain points ≤ most) :
    points.length ≤ cover.length * most := by
  induction cover generalizing points with
  | nil =>
    have none : points = [] := by
      refine List.eq_nil_iff_forall_not_mem.mpr fun m member => ?_
      obtain ⟨_, isNone, _⟩ := covered m member
      cases isNone
    simp [none]
  | cons p cover ih =>
    have rest : (p.uncovered points).length ≤ cover.length * most := by
      refine ih (fun m member => ?_) fun q isLater => ?_
      · obtain ⟨isGiven, notCovered⟩ := List.mem_filter.mp member
        obtain ⟨q, isCover, covers⟩ := covered m isGiven
        rcases List.mem_cons.mp isCover with rfl | isLater
        · simp [covers] at notCovered
        · exact ⟨q, isLater, covers⟩
      · exact Nat.le_trans (gain_uncovered_le q p points) (gains q (List.mem_cons_of_mem _ isLater))
    have here := gains p (List.mem_cons_self ..)
    rw [length_eq_gain_add p, List.length_cons, Nat.succ_mul]
    omega

end Gains

theorem pickGreedily_nil (n : Nat) (primes chosen : List Implicant) :
    pickGreedily n primes chosen [] = chosen := by
  rw [pickGreedily]
  rfl

/-- While primes are picked, some primes cover the numbers left, and those chosen none. -/
structure Picking (primes cover chosen : List Implicant) (points : List Nat) : Prop where
  known : cover ⊆ primes
  covered : ∀ m ∈ points, Union cover m
  spent : ∀ p ∈ chosen, p.gain points = 0

namespace Picking

variable {primes cover chosen : List Implicant} {points : List Nat}

/-- Picking ends, or goes on with a prime that gains at least its share. -/
theorem step (picking : Picking primes cover chosen points) (n : Nat) :
    pickGreedily n primes chosen points = chosen ∨
    ∃ pick : Implicant, pick.gain points ≠ 0 ∧ points.length ≤ cover.length * pick.gain points ∧
      Picking primes cover (chosen ++ [pick]) (pick.uncovered points) ∧
      pickGreedily n primes chosen points =
        pickGreedily n primes (chosen ++ [pick]) (pick.uncovered points) := by
  rcases pickGreedily_step n primes chosen points with
    ⟨ends, _⟩ | ⟨pick, _, _, gains, best, goesOn⟩
  · exact .inl ends
  have atMost : ∀ p ∈ cover, p.gain points ≤ pick.gain points := by
    intro p isCover
    by_cases isChosen : p ∈ chosen
    · rw [picking.spent p isChosen]
      exact Nat.zero_le _
    · exact best p (picking.known isCover) isChosen
  have next : Picking primes cover (chosen ++ [pick]) (pick.uncovered points) := by
    refine ⟨picking.known, fun m member => picking.covered m (List.mem_filter.mp member).1, ?_⟩
    intro p isChosen
    rcases List.mem_append.mp isChosen with early | isPick
    · exact Nat.le_zero.mp (picking.spent p early ▸ gain_uncovered_le p pick points)
    · rw [List.mem_singleton.mp isPick, gain_uncovered_self]
  exact .inr ⟨pick, gains, length_le_gains picking.covered atMost, next, goesOn⟩

/-- If one prime covers all that is left, picking ends after one pick. -/
theorem length_le_of_one (picking : Picking primes cover chosen points) (n : Nat)
    (one : cover.length ≤ 1) :
    (pickGreedily n primes chosen points).length ≤ chosen.length + cover.length := by
  rcases picking.step n with ends | ⟨pick, gains, share, next, goesOn⟩
  · rw [ends]
    exact Nat.le_add_right _ _
  have parts := length_eq_gain_add pick points
  have notNone : cover.length ≠ 0 := by
    intro none
    rw [none, Nat.zero_mul] at share
    omega
  have isOne : cover.length = 1 := by omega
  have noneLeft : pick.uncovered points = [] := by
    rw [isOne, Nat.one_mul] at share
    exact List.eq_nil_of_length_eq_zero (by omega)
  rw [goesOn, noneLeft, pickGreedily_nil, List.length_append, isOne]
  exact Nat.le_refl _

end Picking

/-- Consecutive reciprocals are no less than the last one each. -/
theorem harmonic_add_le (whole start count : Nat) (inside : start + count ≤ whole) :
    harmonic start + count / whole ≤ harmonic (start + count) := by
  induction count with
  | zero => simp
  | succ count ih =>
    have last : (1 : ℚ) / whole ≤ ((start + count + 1 : Nat) : ℚ)⁻¹ := by
      rw [← one_div]
      refine one_div_le_one_div_of_le (by positivity) ?_
      exact_mod_cast inside
    calc harmonic start + ((count + 1 : Nat) : ℚ) / whole
        = harmonic start + count / whole + 1 / whole := by push_cast; ring
      _ ≤ harmonic (start + count) + ((start + count + 1 : Nat) : ℚ)⁻¹ :=
          add_le_add (ih (by omega)) last
      _ = harmonic (start + (count + 1)) := (harmonic_succ (start + count)).symm

/-- A pick that gains its share of the numbers is paid for by the reciprocals of those it
gains. -/
theorem one_add_le_harmonic {size gained left : Nat} (some : gained ≠ 0)
    (share : gained + left ≤ size * gained) :
    1 + harmonic left * size ≤ harmonic (gained + left) * size := by
  have positive : (0 : ℚ) < (gained + left : Nat) := by
    exact_mod_cast (by omega : 0 < gained + left)
  have paid : (1 : ℚ) ≤ gained / (gained + left : Nat) * size := by
    rw [div_mul_eq_mul_div, le_div_iff₀ positive, one_mul, mul_comm]
    exact_mod_cast share
  have reciprocals := harmonic_add_le (gained + left) left gained (by omega)
  rw [Nat.add_comm left gained] at reciprocals
  have scaled := mul_le_mul_of_nonneg_right reciprocals (Nat.cast_nonneg (α := ℚ) size)
  linarith

theorem harmonic_nonneg (n : Nat) : 0 ≤ harmonic n :=
  Finset.sum_nonneg fun _ _ => by positivity

/-- There are at most a harmonic number of picks for each prime that is needed. -/
theorem Picking.length_le {primes cover chosen : List Implicant} {points : List Nat}
    (picking : Picking primes cover chosen points) (n : Nat) :
    ((pickGreedily n primes chosen points).length : ℚ) ≤
      chosen.length + harmonic points.length * cover.length := by
  induction count : points.length using Nat.strongRecOn generalizing chosen points with
  | ind total ih =>
    rcases picking.step n with ends | ⟨pick, gains, share, next, goesOn⟩
    · rw [ends]
      have paid := mul_nonneg (harmonic_nonneg total) (Nat.cast_nonneg (α := ℚ) cover.length)
      linarith
    · -- The pick is paid for by the reciprocals that the numbers left no longer have.
      have parts := length_eq_gain_add pick points
      have later := ih _ (by omega) next rfl
      have paid := one_add_le_harmonic gains (parts ▸ share)
      rw [← parts, count] at paid
      rw [goesOn]
      rw [List.length_append, List.length_singleton] at later
      push_cast at later
      linarith

section Essentials

/-- An essential prime is the only one that covers some of the numbers. -/
theorem exists_own {primes : List Implicant} {points : List Nat} {p : Implicant}
    (essential : p ∈ essentials primes points) :
    ∃ m ∈ points, p.covers m = true ∧ ∀ q ∈ primes, q.covers m = true → q = p := by
  obtain ⟨m, member, found⟩ := List.mem_filterMap.mp (List.mem_eraseDups.mp essential)
  split at found
  · rename_i only alone
    cases found
    have covering : ∀ q, q ∈ primes.filter (·.covers m) ↔ q = p := by simp [alone]
    refine ⟨m, member, (List.mem_filter.mp ((covering p).mpr rfl)).2, fun q isPrime covers => ?_⟩
    exact (covering q).mp (List.mem_filter.mpr ⟨isPrime, covers⟩)
  · cases found

/-- The numbers that the essential primes leave. -/
def leftOver (points : List Nat) : List Nat :=
  (ascending points).filter fun m => !(essentials (primes points) points).any (·.covers m)

theorem mem_leftOver {points : List Nat} {m : Nat} :
    m ∈ leftOver points ↔
      m ∈ points ∧ ∀ p ∈ essentials (primes points) points, ¬ p.covers m = true := by
  simp [leftOver]

/-- As many primes as are picked for what the essential ones leave. -/
theorem length_primeCover (n : Nat) (points : List Nat) :
    (primeCover n points).length = (pickGreedily n (primes points)
      (essentials (primes points) points) (leftOver points)).length := by
  rw [primeCover, selectCover, List.length_map, List.length_mergeSort, leftOver]

end Essentials

/-- Every cube is that of an implicant. -/
theorem exists_toCube_eq (cube : Cube) :
    ∃ p : Implicant, p.toCube cube.length = cube ∧ p.mask < 2 ^ cube.length ∧
      p.value < 2 ^ cube.length ∧ ∀ i, p.mask.testBit i = true → p.value.testBit i = false := by
  obtain ⟨mask, maskBelow, isMask⟩ := exists_pointOf (cube.map Option.isNone)
  obtain ⟨value, valueBelow, isValue⟩ := exists_pointOf (cube.map (·.getD false))
  rw [List.length_map] at maskBelow isMask valueBelow isValue
  have digit : ∀ {number : Nat} {view : Option Bool → Bool},
      pointOf cube.length number = cube.map view →
      ∀ i (inside : i < cube.length), number.testBit (cube.length - 1 - i) = view cube[i] := by
    intro number view isPoint i inside
    have here := congrArg (·[i]?) isPoint
    simpa [pointOf, inside] using here
  refine ⟨⟨mask, value⟩, ?_, maskBelow, valueBelow, fun i masked => ?_⟩
  · refine List.ext_getElem (by simp [toCube]) fun i inside isCube => ?_
    simp only [toCube, List.getElem_map, List.getElem_range, digit isMask i isCube,
      digit isValue i isCube]
    cases cube[i] <;> rfl
  · have inside : i < cube.length := by
      refine Nat.lt_of_not_le fun large => ?_
      have small : mask < 2 ^ i :=
        Nat.lt_of_lt_of_le maskBelow (Nat.pow_le_pow_right (by omega) large)
      rw [Nat.testBit_lt_two_pow small] at masked
      cases masked
    have place : cube.length - 1 - (cube.length - 1 - i) = i := by omega
    have maskHere := digit isMask (cube.length - 1 - i) (by omega)
    have valueHere := digit isValue (cube.length - 1 - i) (by omega)
    rw [place] at maskHere valueHere
    rw [show mask.testBit i = true from masked] at maskHere
    rw [valueHere, Option.isNone_iff_eq_none.mp maskHere.symm]
    rfl

end Implicant

/-- Whether a cube covers the point of some number. -/
def Cube.meets (width : Nat) (numbers : List Nat) (cube : Cube) : Bool :=
  numbers.any fun m => cube.covers (pointOf width m)

namespace ExactCover

open Implicant

variable {n : Nat} {points : List Nat} {cubes : List Cube}

theorem union_iff (exact : ExactCover n points cubes) (bounded : ∀ m ∈ points, m < 2 ^ n) {m : Nat}
    (below : m < 2 ^ n) : Cube.Union cubes (pointOf n m) ↔ m ∈ points :=
  (exact.points _ (by simp [pointOf])).trans (pointsOf_iff bounded below)

/-- Every cube of an exact cover lies inside a prime. -/
theorem exists_prime (exact : ExactCover n points cubes) (bounded : ∀ m ∈ points, m < 2 ^ n)
    {cube : Cube} (member : cube ∈ cubes) :
    ∃ p ∈ primes points, ∀ m ∈ points, cube.covers (pointOf n m) = true → p.covers m = true := by
  obtain ⟨q, isCube, maskBelow, valueBelow, apart⟩ := exists_toCube_eq cube
  rw [exact.widths cube member] at isCube maskBelow valueBelow
  have implies : Implies points q := by
    refine ⟨apart, fun m covers => ?_⟩
    have below : m < 2 ^ n := by
      refine Nat.lt_pow_two_of_testBit m fun i large => ?_
      have small : 2 ^ n ≤ 2 ^ i := Nat.pow_le_pow_right (by omega) large
      have unmasked := Nat.testBit_lt_two_pow (Nat.lt_of_lt_of_le maskBelow small)
      rw [covers_iff.mp covers i unmasked]
      exact Nat.testBit_lt_two_pow (Nat.lt_of_lt_of_le valueBelow small)
    refine (exact.union_iff bounded below).mp ⟨cube, member, ?_⟩
    rwa [← isCube, covers_toCube valueBelow below]
  obtain ⟨p, isPrime, above⟩ := exists_prime_above implies
  refine ⟨p, isPrime, fun m isPoint lies => above m ?_⟩
  rwa [← isCube, covers_toCube valueBelow (bounded m isPoint)] at lies

/-- The cubes that cover none of the numbers left by the essential primes are at least as many
as these: each has a cube inside it, at the number that no other prime covers. -/
theorem length_essentials_le (exact : ExactCover n points cubes)
    (bounded : ∀ m ∈ points, m < 2 ^ n) :
    (essentials (primes points) points).length ≤
      (cubes.filter fun cube => !cube.meets n (leftOver points)).length := by
  let ownCube := fun (p : Implicant) (cube : Cube) =>
    (∀ m ∈ points, cube.covers (pointOf n m) = true → p.covers m = true) ∧
      ∃ m ∈ points, cube.covers (pointOf n m) = true ∧
        ∀ q ∈ primes points, q.covers m = true → q = p
  have hasOwn : ∀ p ∈ essentials (primes points) points,
      ∃ cube ∈ cubes.filter fun cube => !cube.meets n (leftOver points), ownCube p cube := by
    intro p essential
    obtain ⟨m, isPoint, _, only⟩ := exists_own essential
    obtain ⟨cube, member, lies⟩ := (exact.union_iff bounded (bounded m isPoint)).mpr isPoint
    obtain ⟨q, isPrime, above⟩ := exact.exists_prime bounded member
    cases only q isPrime (above m isPoint lies)
    refine ⟨cube, List.mem_filter.mpr ⟨member, ?_⟩, above, m, isPoint, lies, only⟩
    rw [Bool.not_eq_true', Cube.meets, List.any_eq_false]
    intro other isLeft otherLies
    obtain ⟨isOther, uncovered⟩ := mem_leftOver.mp isLeft
    exact uncovered p essential (above other isOther otherLies)
  have atMostOne : ∀ p ∈ essentials (primes points) points, ∀ q cube,
      ownCube p cube → ownCube q cube → p = q := by
    rintro p essential q cube ⟨inside, _⟩ ⟨_, m, isPoint, lies, only⟩
    exact only p (essentials_subset _ _ essential) (inside m isPoint lies)
  have distinct : (essentials (primes points) points).Nodup := nodup_eraseDups _
  rw [← List.toFinset_card_of_nodup distinct]
  refine Nat.le_trans (Finset.card_le_card_of_forall_subsingleton ownCube ?_ ?_)
    (List.toFinset_card_le _)
  · intro p essential
    obtain ⟨cube, isUnused, own⟩ := hasOwn p (List.mem_toFinset.mp essential)
    exact ⟨cube, List.mem_toFinset.mpr isUnused, own⟩
  · rintro cube _ p ⟨isP, ownP⟩ q ⟨_, ownQ⟩
    exact atMostOne p (List.mem_toFinset.mp isP) q cube ownP ownQ

/-- Besides a cube for each essential prime, an exact cover has cubes for what these leave. -/
theorem exists_rest (exact : ExactCover n points cubes) (bounded : ∀ m ∈ points, m < 2 ^ n) :
    ∃ cover ⊆ primes points,
      (essentials (primes points) points).length + cover.length ≤ cubes.length ∧
      ∀ m ∈ leftOver points, Union cover m := by
  have : Nonempty Implicant := ⟨point 0⟩
  have inside : ∀ cube ∈ cubes, ∃ p ∈ primes points, ∀ m ∈ points,
      cube.covers (pointOf n m) = true → p.covers m = true := fun _ => exact.exists_prime bounded
  choose! above isPrime covers using inside
  refine ⟨(cubes.filter (Cube.meets n (leftOver points))).map above, fun p member => ?_, ?_,
    fun m isLeft => ?_⟩
  · obtain ⟨cube, isUsed, rfl⟩ := List.mem_map.mp member
    exact isPrime cube (List.mem_filter.mp isUsed).1
  · have parts := cubes.length_eq_length_filter_add (Cube.meets n (leftOver points))
    have unused := exact.length_essentials_le bounded
    rw [List.length_map]
    omega
  · have isPoint := (mem_leftOver.mp isLeft).1
    obtain ⟨cube, member, lies⟩ := (exact.union_iff bounded (bounded m isPoint)).mpr isPoint
    have isUsed : cube ∈ cubes.filter (Cube.meets n (leftOver points)) :=
      List.mem_filter.mpr ⟨member, List.any_eq_true.mpr ⟨m, isLeft, lies⟩⟩
    exact ⟨above cube, List.mem_map_of_mem isUsed, covers cube member m isPoint lies⟩

/-- Picking starts with the essential primes and what they leave. -/
theorem exists_picking (exact : ExactCover n points cubes) (bounded : ∀ m ∈ points, m < 2 ^ n) :
    ∃ cover, (essentials (primes points) points).length + cover.length ≤ cubes.length ∧
      Picking (primes points) cover (essentials (primes points) points) (leftOver points) := by
  obtain ⟨cover, known, fewer, covered⟩ := exact.exists_rest bounded
  refine ⟨cover, fewer, known, covered, fun p essential => ?_⟩
  exact List.countP_eq_zero.mpr fun m isLeft => (mem_leftOver.mp isLeft).2 p essential

end ExactCover

/-- Any cubes that cover some numbers exactly are at least as many as the essential primes. Beyond
these, a prime cover has at most a harmonic number of primes for each of their cubes, and it is no
larger than they are if it has at most two. -/
theorem primeCover_near_smallest {n : Nat} {points : List Nat} {cubes : List Cube}
    (bounded : ∀ m ∈ points, m < 2 ^ n) (exact : ExactCover n points cubes) :
    let essential := (Implicant.essentials (Implicant.primes points) points).length
    essential ≤ cubes.length ∧
      ((primeCover n points).length - essential : ℚ) ≤
        harmonic (Implicant.leftOver points).length * (cubes.length - essential) ∧
      ((primeCover n points).length ≤ essential + 2 →
        (primeCover n points).length ≤ cubes.length) := by
  intro essential
  obtain ⟨cover, fewer, picking⟩ := exact.exists_picking bounded
  rw [Implicant.length_primeCover]
  refine ⟨by omega, ?_, fun few => ?_⟩
  · have picks := picking.length_le n
    have rest : (cover.length : ℚ) ≤ cubes.length - essential := by
      have sum : ((essential + cover.length : Nat) : ℚ) ≤ cubes.length := by exact_mod_cast fewer
      push_cast at sum
      linarith
    have scaled := mul_le_mul_of_nonneg_left rest
      (Implicant.harmonic_nonneg (Implicant.leftOver points).length)
    linarith
  · by_cases one : cover.length ≤ 1
    · exact Nat.le_trans (picking.length_le_of_one n one) fewer
    · omega

/-- Six numbers in a ring, covered by three pairs of neighbours. -/
theorem exactCover_ring :
    ExactCover 3 [0, 1, 2, 5, 6, 7] [[some false, some false, none], [some true, none, some true],
      [none, some true, some false]] := by
  refine ⟨by simp [Cube.OfWidth], fun point isPoint => ?_⟩
  obtain ⟨a, b, c, rfl⟩ := List.length_eq_three.mp isPoint
  revert a b c
  decide

/-- In the ring no prime is essential and all four are picked, within the bound for three cubes.
Five numbers in a chain have two essential primes, and the one that is picked besides them makes a
smallest cover. -/
theorem primeCover_near_smallest_picking :
    let ring := [0, 1, 2, 5, 6, 7]
    let pairs := [[some false, some false, none], [some true, none, some true],
      [none, some true, some false]]
    let chain := [0, 2, 3, 4, 5]
    let links := [[some false, some true, none], [some true, some false, none],
      [none, some false, some false]]
    (∀ m ∈ ring, m < 2 ^ 3) ∧ ExactCover 3 ring pairs ∧
      Implicant.essentials (Implicant.primes ring) ring = [] ∧ (primeCover 3 ring).length = 4 ∧
      ((primeCover 3 ring).length : ℚ) ≤ harmonic 6 * pairs.length ∧
      (∀ m ∈ chain, m < 2 ^ 3) ∧ ExactCover 3 chain links ∧
      (Implicant.essentials (Implicant.primes chain) chain).length = 2 ∧
      (primeCover 3 chain).length = 3 ∧ (primeCover 3 chain).length ≤ links.length := by
  intro ring pairs chain links
  have ringBounded : ∀ m ∈ ring, m < 2 ^ 3 := by decide
  have chainBounded : ∀ m ∈ chain, m < 2 ^ 3 := by decide
  have linked : ExactCover 3 chain links := by
    refine ⟨by simp [links, Cube.OfWidth], fun point isPoint => ?_⟩
    obtain ⟨a, b, c, rfl⟩ := List.length_eq_three.mp isPoint
    revert a b c
    decide
  have noneEssential : Implicant.essentials (Implicant.primes ring) ring = [] := by cbv
  have allLeft : (Implicant.leftOver ring).length = 6 := by cbv
  have four : (primeCover 3 ring).length = 4 := by cbv
  have twoEssential : (Implicant.essentials (Implicant.primes chain) chain).length = 2 := by cbv
  have three : (primeCover 3 chain).length = 3 := by cbv
  obtain ⟨_, bound, _⟩ := primeCover_near_smallest ringBounded exactCover_ring
  rw [noneEssential, allLeft, List.length_nil, Nat.cast_zero, sub_zero, sub_zero] at bound
  obtain ⟨_, _, smallest⟩ := primeCover_near_smallest chainBounded linked
  rw [twoEssential] at smallest
  exact ⟨ringBounded, exactCover_ring, noneEssential, four, bound, chainBounded, linked,
    twoEssential, three, smallest (by omega)⟩

/-- The ring of six numbers: every prime covers two neighbours and none is essential. The first
two picks lie opposite to each other and leave two numbers that are no neighbours. -/
theorem primeCover_not_smallest :
    let points := [0, 1, 2, 5, 6, 7]
    let cubes := [[some false, some false, none], [some true, none, some true],
      [none, some true, some false]]
    (∀ m ∈ points, m < 2 ^ 3) ∧ ExactCover 3 points cubes ∧
      cubes.length < (primeCover 3 points).length := by
  intro points cubes
  have four : (primeCover 3 points).length = 4 := by cbv
  exact ⟨by decide, exactCover_ring, by rw [four]; decide⟩

end IsaLogic
