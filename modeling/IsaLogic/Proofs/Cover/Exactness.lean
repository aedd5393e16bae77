import Mathlib
import IsaLogic.Proofs.Cover.Merging

/-!
# Prime covers are exact

Each round of merging has every implicant with one number of unmentioned digits
(`Complete`), since an implicant that leaves a digit unmentioned is merged from its two
sides. So an implicant lies inside one that merges with none (`Complete.exists_above`),
and what merging finds are the primes, all of them and nothing else (`mem_primes_iff`).
When every digit has had its round, nothing is left to merge (`nextLevel_iterate_eq_nil`).

A cover is selected from these primes without repetition. It covers the given numbers
and no others, and its two-level formula is flat, because a cube without literals is the
only prime where it is one. The formula depends on the truth table alone.
-/

namespace IsaLogic

namespace Implicant

section Flips

variable {points : List Nat} {p q : Implicant} {m k : Nat}

/-- The other side of a digit covers the numbers with the digit changed. -/
theorem covers_flip (k m : Nat) (p : Implicant) :
    (p.flip k).covers m = true ↔ p.covers (m ^^^ 2 ^ k) = true := by
  rw [covers_iff, covers_iff]
  refine forall_congr' fun i => imp_congr_right fun _ => ?_
  rw [testBit_flip, Nat.testBit_xor, Nat.testBit_two_pow]
  cases m.testBit i <;> cases p.value.testBit i <;> cases decide (k = i) <;> decide

/-- A digit that an implicant does not mention may change. -/
theorem covers_changed (unmentioned : q.mask.testBit k = true) :
    q.covers (m ^^^ 2 ^ k) = true ↔ q.covers m = true := by
  rw [covers_iff, covers_iff]
  refine forall_congr' fun i => imp_congr_right fun mentioned => ?_
  have differs : k ≠ i := by
    rintro rfl
    rw [unmentioned] at mentioned
    cases mentioned
  rw [Nat.testBit_xor, Nat.testBit_two_pow, decide_eq_false differs, Bool.xor_false]

/-- A prime lies inside no other implicant. -/
theorem Prime.eq_of_below (prime : Prime points p) (implies : Implies points q)
    (below : ∀ m, p.covers m = true → q.covers m = true) : p = q := by
  have own : p.covers p.value = true := covers_iff.mpr fun _ _ => rfl
  have masks : ∀ i, p.mask.testBit i = q.mask.testBit i := by
    intro i
    cases inP : p.mask.testBit i <;> cases inQ : q.mask.testBit i
    · rfl
    · -- Without the digit the larger one has both sides, which the prime does not allow.
      obtain ⟨m, covers, outside⟩ := prime.needs i inP
      have inside := (covers_changed inQ).mp (below _ ((covers_flip i m p).mp covers))
      exact absurd (implies.inside m inside) outside
    · -- The larger one cannot have a digit that the prime leaves open.
      have here := covers_iff.mp (below _ own) i inQ
      have there := covers_iff.mp (below _ ((covers_changed inP).mpr own)) i inQ
      rw [Nat.testBit_xor, Nat.testBit_two_pow, here, decide_eq_true rfl, Bool.xor_true] at there
      exact absurd there (by simp)
    · rfl
  have values : ∀ i, p.value.testBit i = q.value.testBit i := by
    intro i
    cases inP : p.mask.testBit i
    · exact covers_iff.mp (below _ own) i (masks i ▸ inP)
    · rw [prime.implies.apart i inP, implies.apart i (masks i ▸ inP)]
  obtain ⟨mask, value⟩ := p
  obtain ⟨otherMask, otherValue⟩ := q
  have sameMask : mask = otherMask := Nat.eq_of_testBit_eq masks
  have sameValue : value = otherValue := Nat.eq_of_testBit_eq values
  rw [sameMask, sameValue]

end Flips

/-- Every implicant with the number of unmentioned digits is there. -/
def Complete (points : List Nat) (width count : Nat) (current : List Implicant) : Prop :=
  ∀ p : Implicant, Implies points p → p.freedom width = count → p ∈ current

namespace Complete

variable {points : List Nat} {width count : Nat} {current : List Implicant}

theorem start (bounded : ∀ m ∈ points, m < 2 ^ width) :
    Complete points width 0 (ascending (points.map point)) := by
  intro p implies noneFree
  have unmasked : p.mask = 0 := by
    apply Nat.eq_of_testBit_eq
    intro i
    rw [Nat.zero_testBit]
    by_cases inside : i < width
    · exact Bool.eq_false_iff.mpr (List.countP_eq_zero.mp noneFree i (List.mem_range.mpr inside))
    · exact (implies.testBit_of_le bounded (Nat.le_of_not_lt inside)).2
  have isPoint : p = point p.value := by
    obtain ⟨mask, value⟩ := p
    cases unmasked
    rfl
  rw [isPoint]
  exact mem_ascending.mpr (List.mem_map_of_mem implies.value_mem)

/-- An implicant that does not mention a digit is merged from the two sides of the digit. -/
theorem next (complete : Complete points width count current) :
    Complete points width (count + 1) (nextLevel current) := by
  intro p implies free
  have someFree : 0 < (List.range width).countP p.mask.testBit := by
    change 0 < p.freedom width
    omega
  obtain ⟨k, isDigit, masked⟩ := List.countP_pos_iff.mp someFree
  have isMask : p.mask = p.mask ^^^ 2 ^ k ||| 2 ^ k := by
    apply Nat.eq_of_testBit_eq
    intro i
    rw [Nat.testBit_or, Nat.testBit_xor, Nat.testBit_two_pow]
    by_cases here : k = i
    · rw [← here, masked]
      simp
    · simp [here]
  have fresh : (p.mask ^^^ 2 ^ k).testBit k = false := by
    rw [Nat.testBit_xor, Nat.testBit_two_pow, masked, decide_eq_true rfl, Bool.xor_self]
  obtain ⟨low, high, merges⟩ := implies.sides isMask fresh
  have fewer : freedom width { mask := p.mask ^^^ 2 ^ k, value := p.value } = count := by
    have more := freedom_merge (List.mem_range.mp isDigit) fresh merges
    omega
  exact mem_nextLevel.mpr ⟨_, k, complete _ low fewer, complete _ high fewer, merges⟩

/-- An implicant lies inside one that merging finds, if there are rounds enough. -/
theorem exists_above {rounds : Nat} (complete : Complete points width count current)
    (level : Level points width count current) (bounded : ∀ m ∈ points, m < 2 ^ width)
    (enough : width < count + rounds) {q : Implicant} (implies : Implies points q)
    (free : count ≤ q.freedom width) :
    ∃ p ∈ primesFrom rounds current, ∀ m, q.covers m = true → p.covers m = true := by
  induction rounds generalizing count current q with
  | zero =>
    have atMost := freedom_le width q
    omega
  | succ rounds ih =>
    have later : ∀ r : Implicant, Implies points r → count + 1 ≤ r.freedom width →
        ∃ p ∈ primesFrom (rounds + 1) current, ∀ m, r.covers m = true → p.covers m = true := by
      intro r impliesR freeR
      obtain ⟨p, member, above⟩ := ih complete.next (level.next bounded) (by omega) impliesR freeR
      exact ⟨p, List.mem_append_right _ member, above⟩
    rcases Nat.lt_or_eq_of_le free with more | same
    · exact later q implies more
    · have isCurrent := complete q implies same.symm
      cases unmerged : current.all fun b => (merge? q b).isNone
      · -- What the implicant merges with gives one that is larger by a digit.
        obtain ⟨b, isB, merges⟩ := List.all_eq_false.mp unmerged
        obtain ⟨merged, found⟩ := Option.ne_none_iff_exists'.mp (by simpa using merges)
        obtain ⟨k, rfl⟩ := exists_digit_of_merge? found
        obtain ⟨inside, fresh⟩ := level.digit bounded isCurrent isB
        have larger := freedom_merge inside fresh found
        obtain ⟨p, member, above⟩ :=
          later merged (implies.merge (level.implies _ isB) found) (by omega)
        exact ⟨p, member, fun m covers => above m ((covers_merge? found m).mpr (.inl covers))⟩
      · exact ⟨q, List.mem_append_left _ (List.mem_filter.mpr ⟨isCurrent, unmerged⟩),
          fun _ covers => covers⟩

end Complete

section Primes

variable {points : List Nat} {p q : Implicant}

@[simp] theorem primesFrom_nil (rounds : Nat) : primesFrom rounds [] = [] := by
  induction rounds with
  | zero => rfl
  | succ rounds ih =>
    have noneMerged : ascending ([] : List Implicant) = [] := by
      rw [ascending, List.mergeSort_nil]
      rfl
    change primesFrom rounds (ascending []) = []
    rw [noneMerged, ih]

/-- Every implicant of some points lies inside a prime that merging finds. -/
theorem exists_prime_above (implies : Implies points q) :
    ∃ p ∈ primes points, ∀ m, q.covers m = true → p.covers m = true := by
  let digits := (points.map Nat.log2).foldl max 0 + 1
  have complete : Complete points digits 0 _ := .start fun _ => lt_two_pow_digits
  have enough : digits < 0 + (digits + 1) := by omega
  obtain ⟨p, member, above⟩ := complete.exists_above (Level.start points digits)
    (fun _ => lt_two_pow_digits) enough implies (Nat.zero_le _)
  exact ⟨p, mem_ascending.mpr member, above⟩

/-- Merging finds the primes, all of them and nothing else. -/
theorem mem_primes_iff : p ∈ primes points ↔ Prime points p := by
  refine ⟨prime_of_mem_primes, fun prime => ?_⟩
  obtain ⟨other, isFound, above⟩ := exists_prime_above prime.implies
  rw [prime.eq_of_below (prime_of_mem_primes isFound).implies above]
  exact isFound

/-- No implicant leaves more digits unmentioned than there are. -/
theorem Level.eq_nil {width count : Nat} {current : List Implicant}
    (level : Level points width count current) (exceeds : width < count) : current = [] := by
  refine List.eq_nil_iff_forall_not_mem.mpr fun p member => ?_
  have atMost := freedom_le width p
  rw [level.free p member] at atMost
  omega

theorem Level.iterate {width count : Nat} {current : List Implicant}
    (level : Level points width count current) (bounded : ∀ m ∈ points, m < 2 ^ width)
    (rounds : Nat) : Level points width (count + rounds) (nextLevel^[rounds] current) := by
  induction rounds with
  | zero => exact level
  | succ rounds ih =>
    rw [Function.iterate_succ_apply']
    exact ih.next bounded

/-- Merging ends: after a round for each digit and one more nothing is left to merge. -/
theorem nextLevel_iterate_eq_nil {n rounds : Nat} (bounded : ∀ m ∈ points, m < 2 ^ n)
    (enough : n < rounds) : nextLevel^[rounds] (ascending (points.map point)) = [] :=
  ((Level.start points n).iterate bounded rounds).eq_nil (by omega)

/-- A round for each digit and one more are enough: further rounds find nothing. -/
theorem primesFrom_eq {width count : Nat} {current : List Implicant} (rounds later : Nat)
    (level : Level points width count current) (bounded : ∀ m ∈ points, m < 2 ^ width)
    (enough : width < count + rounds) (more : rounds ≤ later) :
    primesFrom later current = primesFrom rounds current := by
  induction rounds generalizing count current later with
  | zero => rw [level.eq_nil enough, primesFrom_nil, primesFrom_nil]
  | succ rounds ih =>
    obtain ⟨later, rfl⟩ := Nat.exists_eq_add_of_lt (Nat.lt_of_lt_of_le (Nat.zero_lt_succ _) more)
    rw [Nat.zero_add] at more ⊢
    exact congrArg (_ ++ ·) (ih _ (level.next bounded) (by omega) (Nat.le_of_succ_le_succ more))

/-- The primes are what merging finds until nothing is left, which takes no more rounds than
one for each digit of the numbers and one more. -/
theorem primes_eq {n rounds : Nat} (bounded : ∀ m ∈ points, m < 2 ^ n) (enough : n < rounds) :
    primes points = ascending (primesFrom rounds (ascending (points.map point))) := by
  let digits := (points.map Nat.log2).foldl max 0 + 1
  have fromDigits := primesFrom_eq (digits + 1) (max (digits + 1) rounds)
    (Level.start points digits) (fun _ => lt_two_pow_digits) (by omega) (Nat.le_max_left ..)
  have fromRounds := primesFrom_eq rounds (max (digits + 1) rounds)
    (Level.start points n) bounded (by omega) (Nat.le_max_right ..)
  exact congrArg ascending (fromDigits.symm.trans fromRounds)

end Primes

section Selection

theorem nodup_pickGreedily (n : Nat) (primes : List Implicant) {chosen : List Implicant}
    (distinct : chosen.Nodup) (points : List Nat) :
    (pickGreedily n primes chosen points).Nodup := by
  induction count : points.length using Nat.strongRecOn generalizing chosen points with
  | ind count ih =>
    rcases pickGreedily_step n primes chosen points with
      ⟨ends, _⟩ | ⟨pick, _, notChosen, gains, _, goesOn⟩
    · rwa [ends]
    · rw [goesOn]
      have fewer := length_uncovered_lt gains
      have still : (chosen ++ [pick]).Nodup :=
        (List.perm_append_singleton pick chosen).symm.nodup
          (List.nodup_cons.mpr ⟨notChosen, distinct⟩)
      exact ih _ (count ▸ fewer) still _ rfl

/-- No prime is selected twice. -/
theorem nodup_selectCover (n : Nat) (primes : List Implicant) (points : List Nat) :
    (selectCover n primes points).Nodup :=
  (List.mergeSort_perm _ _).symm.nodup (nodup_pickGreedily n primes (nodup_eraseDups _) _)

end Selection

end Implicant

/-- The points that some numbers stand for. -/
def PointsOf (width : Nat) (numbers : List Nat) (point : List Bool) : Prop :=
  ∃ m ∈ numbers, pointOf width m = point

instance (width : Nat) (numbers : List Nat) (point : List Bool) :
    Decidable (PointsOf width numbers point) :=
  inferInstanceAs (Decidable (∃ m ∈ numbers, pointOf width m = point))

/-- Cubes over all inputs that cover the points of some numbers and no others. -/
structure ExactCover (width : Nat) (numbers : List Nat) (cubes : List Cube) : Prop where
  widths : Cube.OfWidth width cubes
  points : ∀ point : List Bool, point.length = width →
    (Cube.Union cubes point ↔ PointsOf width numbers point)

section Cover

variable {n : Nat} {points : List Nat}

theorem pointsOf_iff (bounded : ∀ m ∈ points, m < 2 ^ n) {m : Nat} (below : m < 2 ^ n) :
    PointsOf n points (pointOf n m) ↔ m ∈ points := by
  constructor
  · rintro ⟨k, member, same⟩
    exact pointOf_inj (bounded k member) below same ▸ member
  · intro member
    exact ⟨m, member, rfl⟩

theorem exactCover_primeCover (bounded : ∀ m ∈ points, m < 2 ^ n) :
    ExactCover n points (primeCover n points) where
  widths := Implicant.ofWidth_map_toCube _ _
  points point isPoint := by
    obtain ⟨m, below, isNumber⟩ := exists_pointOf point
    rw [isPoint] at below isNumber
    rw [← isNumber, union_primeCover bounded below, pointsOf_iff bounded below]

/-- Different primes are different cubes. -/
theorem eq_of_toCube_eq (bounded : ∀ m ∈ points, m < 2 ^ n) {p q : Implicant}
    (primeP : Implicant.Prime points p) (primeQ : Implicant.Prime points q)
    (same : p.toCube n = q.toCube n) : p = q := by
  refine primeP.eq_of_below primeQ.implies fun m covers => ?_
  have below : m < 2 ^ n := bounded m (primeP.implies.inside m covers)
  rwa [← Implicant.covers_toCube (bounded _ primeQ.implies.value_mem) below, ← same,
    Implicant.covers_toCube (bounded _ primeP.implies.value_mem) below]

theorem nodup_primeCover (bounded : ∀ m ∈ points, m < 2 ^ n) : (primeCover n points).Nodup := by
  have distinct := Implicant.nodup_selectCover n (Implicant.primes points) points
  refine List.pairwise_map.mpr (distinct.imp_of_mem ?_)
  intro p q isP isQ differ same
  refine differ (eq_of_toCube_eq bounded ?_ ?_ same)
  · exact Implicant.prime_of_mem_primes (Implicant.selectCover_subset _ _ _ isP)
  · exact Implicant.prime_of_mem_primes (Implicant.selectCover_subset _ _ _ isQ)

end Cover

/-- A truth table depends on the terms and the truth alone. -/
theorem TruthTable.ofFormula_congr {f g : Formula} (sameTerms : g.terms = f.terms)
    (equivalent : g.Equivalent f) : ofFormula g = ofFormula f := by
  have sameRows : (fun assignment : Assignment => g.holds assignment.value) =
      fun assignment => f.holds assignment.value := funext fun _ => equivalent _
  simp only [ofFormula, sameTerms, sameRows]

theorem Formula.isFlat_minimizeExact (form : TwoLevel) (f : Formula) :
    (f.minimizeExact form).isFlat form = true :=
  have bounded : ∀ m ∈ (TruthTable.ofFormula f).points form, m < 2 ^ f.terms.length :=
    fun _ => TruthTable.lt_of_mem_points
  Cube.isFlat_coverFormula (describes_primeCover form f).width (nodup_primeCover bounded)
    fun _ => prime_of_mem_primeCover bounded

/-- Merging ends, as nothing is left to merge after a round for each digit and one more, and it
finds the primes of the numbers, all of them. The prime cover has a prime for each of its cubes,
none of them twice, and covers the numbers exactly. Exact minimization therefore gives an
equivalent flat form, which formulas with the same terms and the same truth table share. -/
theorem primeCover_exact :
    (∀ (n : Nat) (points : List Nat), (∀ m ∈ points, m < 2 ^ n) →
      (∀ rounds, n < rounds →
        Implicant.nextLevel^[rounds] (ascending (points.map Implicant.point)) = [] ∧
        Implicant.primes points =
          ascending (Implicant.primesFrom rounds (ascending (points.map Implicant.point)))) ∧
      (∀ p, p ∈ Implicant.primes points ↔ Implicant.Prime points p) ∧
      ExactCover n points (primeCover n points) ∧ (primeCover n points).Nodup ∧
      ∀ cube ∈ primeCover n points, Cube.Prime n (PointsOf n points) cube) ∧
    ∀ (form : TwoLevel) (f : Formula), (f.minimizeExact form).Equivalent f ∧
      (f.minimizeExact form).isFlat form = true ∧
      ∀ g : Formula, g.terms = f.terms → g.Equivalent f →
        g.minimizeExact form = f.minimizeExact form := by
  refine ⟨fun n points bounded => ?_, fun form f => ?_⟩
  · have exact := exactCover_primeCover bounded
    refine ⟨fun rounds enough =>
        ⟨Implicant.nextLevel_iterate_eq_nil bounded enough, Implicant.primes_eq bounded enough⟩,
      fun _ => Implicant.mem_primes_iff, exact, nodup_primeCover bounded, fun cube member => ?_⟩
    exact (prime_of_mem_primeCover bounded member).congr exact.points
  · refine ⟨(describes_primeCover form f).equivalent, f.isFlat_minimizeExact form, ?_⟩
    intro g sameTerms equivalent
    rw [Formula.minimizeExact, Formula.minimizeExact,
      TruthTable.ofFormula_congr sameTerms equivalent]

/-- Six numbers, one of them given twice, and two ways to say that one of two terms holds. -/
theorem primeCover_exact_six :
    let points := [0, 1, 2, 5, 6, 7, 0]
    let rv32 := Formula.atom (.xlen .rv32)
    let rv64 := Formula.atom (.xlen .rv64)
    let f := Formula.exactlyOne [rv32, rv64]
    let g := Formula.conj [.disj [rv32, rv64], .neg (.conj [rv32, rv64])]
    (∀ m ∈ points, m < 2 ^ 3) ∧ ExactCover 3 points (primeCover 3 points) ∧
      (∀ cube ∈ primeCover 3 points, Cube.Prime 3 (PointsOf 3 points) cube) ∧
      g.terms = f.terms ∧ g.Equivalent f ∧ (g.minimizeExact .conjunctive).isCnf = true ∧
      g.minimizeExact .conjunctive = f.minimizeExact .conjunctive := by
  intro points rv32 rv64 f g
  have bounded : ∀ m ∈ points, m < 2 ^ 3 := by decide
  have sameTerms : g.terms = f.terms := by cbv
  have equivalent : g.Equivalent f := by
    intro valuation
    cases first : valuation (.xlen .rv32) <;> cases second : valuation (.xlen .rv64) <;>
      simp [f, g, rv32, rv64, first, second]
  obtain ⟨covers, minimizes⟩ := primeCover_exact
  obtain ⟨_, _, exact, _, prime⟩ := covers 3 points bounded
  exact ⟨bounded, exact, prime, sameTerms, equivalent, (minimizes .conjunctive g).2.1,
    (minimizes .conjunctive f).2.2 g sameTerms equivalent⟩

end IsaLogic
