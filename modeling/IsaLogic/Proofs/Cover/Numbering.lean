import Mathlib
import IsaLogic.Proofs.Cover.Exactness

/-!
# Assignments and their numbers

The assignments of distinct terms stand each at the number that its values spell (`counts_allOf`),
so a truth table splits the numbers into those where its formula holds and those where it fails,
and the cube of a number contains the assignment at that number and no other
(`tabulates_ofFormula`).

Numbers are unbounded here. Words are wide enough for them while there are fewer terms than
digits: a counter of 64 digits that is shifted gives the same assignments (`allOf_eq_counted`), and
patterns of 32 digits that are masked give the same cubes (`toCube_eq_masked`).
-/

namespace IsaLogic

namespace Assignment

/-- The assignment gives the terms the values that a valuation gives them, and no other term any. -/
def IsOf (valuation : Term → Bool) (terms : List Term) (assignment : Assignment) : Prop :=
  ∀ term, lookup? term assignment = if term ∈ terms then some (valuation term) else none

/-- Total assignments of some terms, each of them where a binary counter comes to it: at the number
that the values of the terms spell. -/
structure Counts (terms : List Term) (rows : List Assignment) : Prop where
  count : rows.length = 2 ^ terms.length
  total : ∀ row ∈ rows, ∃ valuation, IsOf valuation terms row
  place : ∀ (valuation : Term → Bool) (m : Nat),
    (∃ row, rows[m]? = some row ∧ IsOf valuation terms row) ↔ m = numberOf (terms.map valuation)

section Enumeration

variable {terms : List Term}

/-- Where no term is repeated, every value that is listed is found. -/
theorem isOf_zip_iff (distinct : terms.Nodup) {point : List Bool}
    (isPoint : point.length = terms.length) {valuation : Term → Bool} :
    IsOf valuation terms (terms.zip point) ↔ point = terms.map valuation := by
  have keys : (terms.zip point).map Prod.fst = terms := List.map_fst_zip (Nat.le_of_eq isPoint.symm)
  have found : ∀ {term value}, (term, value) ∈ terms.zip point →
      lookup? term (terms.zip point) = some value := lookup?_of_mem (keys.symm ▸ distinct)
  constructor
  · intro isOf
    refine List.ext_getElem (by simpa using isPoint) fun i inPoint inValues => ?_
    have inTerms : i < terms.length := by simpa using inValues
    have listed : (terms[i], point[i]) ∈ terms.zip point :=
      List.mem_iff_getElem.mpr ⟨i, by simp [inTerms, inPoint], by simp⟩
    have isValue := isOf terms[i]
    rw [found listed, if_pos (List.getElem_mem inTerms)] at isValue
    simpa using isValue
  · rintro rfl term
    split
    · rename_i member
      refine found ?_
      rw [zip_map_eq_ofValuation]
      exact List.mem_map_of_mem member
    · rename_i absent
      rw [← not_ne_iff, lookup?_ne_none, keys]
      exact absent

/-- The assignment at a number is that of the valuations whose values spell the number. -/
theorem isOf_iff_eq_numberOf (distinct : terms.Nodup) {m : Nat} {row : Assignment}
    (found : (allOf terms)[m]? = some row) (valuation : Term → Bool) :
    IsOf valuation terms row ↔ m = numberOf (terms.map valuation) := by
  have below := lt_of_getElem?_allOf found
  rw [getElem?_allOf terms below, Option.some_inj] at found
  rw [← found, isOf_zip_iff distinct (by simp [pointOf])]
  exact pointOf_eq_iff below (List.length_map _)

/-- The assignments of distinct terms are counted in binary. -/
theorem counts_allOf (distinct : terms.Nodup) : Counts terms (allOf terms) where
  count := length_allOf terms
  total row member := by
    obtain ⟨m, found⟩ := List.mem_iff_getElem?.mp member
    have isPoint : (pointOf terms.length m).length = terms.length := by simp [pointOf]
    obtain ⟨valuation, values⟩ := exists_valuation distinct isPoint
    rw [getElem?_allOf terms (lt_of_getElem?_allOf found), Option.some_inj] at found
    exact ⟨valuation, found ▸ (isOf_zip_iff distinct isPoint).mpr values.symm⟩
  place valuation m := by
    constructor
    · rintro ⟨row, found, isOf⟩
      exact (isOf_iff_eq_numberOf distinct found valuation).mp isOf
    · rintro rfl
      have found := getElem?_allOf terms (numberOf_map_lt valuation terms)
      exact ⟨_, found, (isOf_iff_eq_numberOf distinct found valuation).mpr rfl⟩

end Enumeration

end Assignment

/-- The cube contains the assignment and no other assignment of the terms. -/
def Cube.Isolates (terms : List Term) (row : Assignment) (cube : Cube) : Prop :=
  cube.length = terms.length ∧
    ∀ valuation, cube.covers (terms.map valuation) = true ↔ row.IsOf valuation terms

/-- The numbers of all assignments of the terms of a formula, in ascending order, those where the
formula holds apart from those where it fails; each has a cube for the assignment at its place. -/
structure TruthTable.Tabulates (f : Formula) (table : TruthTable) : Prop where
  terms : table.terms = f.terms
  ascending : ∀ form, (table.points form).Pairwise (· < ·)
  disjoint : table.on.Disjoint table.off
  whole : ∀ m, m ∈ table.on ∨ m ∈ table.off ↔ m < 2 ^ f.terms.length
  truth : ∀ valuation, numberOf (f.terms.map valuation) ∈ table.on ↔ f.holds valuation = true
  cubes : ∀ form, List.Forall₂
    (fun m cube => ∃ row, (Assignment.allOf f.terms)[m]? = some row ∧ cube.Isolates f.terms row)
    (table.points form) (table.pointCubes form)

section Tables

/-- The cube of a number contains the assignment at its place alone. -/
theorem Implicant.isolates_point {terms : List Term} (distinct : terms.Nodup) {m : Nat}
    {row : Assignment} (found : (Assignment.allOf terms)[m]? = some row) :
    ((point m).toCube terms.length).Isolates terms row := by
  refine ⟨by simp [toCube], fun valuation => ?_⟩
  rw [Assignment.isOf_iff_eq_numberOf distinct found, ← covers_point,
    ← covers_toCube (lt_of_getElem?_allOf found) (numberOf_map_lt valuation terms),
    pointOf_numberOf_map]

/-- The numbers in a truth table are places in the list of assignments. -/
theorem TruthTable.sublist_points (form : TwoLevel) (f : Formula) :
    ((ofFormula f).points form).Sublist (List.range (2 ^ f.terms.length)) := by
  have places : ∀ rows : List Bool, rows.zipIdx.map Prod.snd = List.range rows.length :=
    fun rows => by rw [List.zipIdx_map_snd, List.range_eq_range']
  have count : ((Assignment.allOf f.terms).map fun assignment =>
      f.holds assignment.value).length = 2 ^ f.terms.length := by
    rw [List.length_map, length_allOf]
  rw [← count, ← places]
  cases form <;> exact List.filter_sublist.map Prod.snd

theorem TruthTable.mem_points_iff_holds {f : Formula} {m : Nat} {row : Assignment}
    (found : (Assignment.allOf f.terms)[m]? = some row) (form : TwoLevel) :
    m ∈ (ofFormula f).points form ↔ f.holds row.value = form.covered := by
  simp [mem_points_iff, found]

/-- A truth table splits the numbers of the assignments. -/
theorem TruthTable.tabulates_ofFormula (f : Formula) : Tabulates f (ofFormula f) where
  terms := rfl
  ascending form := List.pairwise_lt_range.sublist (sublist_points form f)
  disjoint m isOn isOff := by
    change m ∈ (ofFormula f).points .disjunctive at isOn
    obtain ⟨row, found, holds⟩ := mem_points_iff.mp isOn
    have fails := (mem_points_iff_holds found .conjunctive).mp isOff
    rw [holds] at fails
    cases fails
  whole m := by
    change m ∈ (ofFormula f).points .disjunctive ∨ m ∈ (ofFormula f).points .conjunctive ↔ _
    refine ⟨fun listed => listed.elim lt_of_mem_points lt_of_mem_points, fun below => ?_⟩
    have found := getElem?_allOf f.terms below
    rw [mem_points_iff_holds found, mem_points_iff_holds found]
    exact Bool.eq_false_or_eq_true _
  truth valuation := by
    change _ ∈ (ofFormula f).points .disjunctive ↔ _
    exact mem_points (numberOf_map_lt valuation f.terms) (pointOf_numberOf_map valuation f.terms)
  cubes form := by
    rw [pointCubes, List.forall₂_map_right_iff, List.forall₂_same]
    intro m member
    obtain ⟨row, found, _⟩ := mem_points_iff.mp member
    exact ⟨row, found, Implicant.isolates_point f.nodup_terms found⟩

end Tables

section Words

/-- The assignments as a counter of 64 digits gives them: it stops before the word whose only digit
stands above those of the terms, and each term has its digit shifted to the lowest place. -/
def Assignment.counted (terms : List Term) : List Assignment :=
  (List.range ((1 : UInt64) <<< UInt64.ofNat terms.length).toNat).map fun m =>
    terms.zipIdx.map fun (term, i) =>
      (term, UInt64.ofNat m >>> UInt64.ofNat (terms.length - 1 - i) &&& 1 == 1)

/-- The cube over `n` inputs of an implicant whose mask and value are words of 32 digits, each input
read by a word that has its digit alone. -/
def Implicant.masked (n : Nat) (mask value : UInt32) : Cube :=
  (List.range n).map fun i =>
    let digit := (1 : UInt32) <<< UInt32.ofNat (n - 1 - i)
    if mask &&& digit != 0 then none else some (value &&& digit != 0)

variable {n : Nat}

/-- A shift of a 64-bit word goes by its amount modulo the width, which leaves smaller amounts. -/
theorem toNat_ofNat_mod (fits : n < 64) : (UInt64.ofNat n).toNat % 64 = n := by
  rw [UInt64.toNat_ofNat', Nat.mod_mod_of_dvd n (by decide), Nat.mod_eq_of_lt fits]

theorem toNat_one_shiftLeft (fits : n < 64) : ((1 : UInt64) <<< UInt64.ofNat n).toNat = 2 ^ n := by
  have small : 2 ^ n < 2 ^ 64 := Nat.pow_lt_pow_right (by omega) fits
  rw [UInt64.toNat_shiftLeft, toNat_ofNat_mod fits, UInt64.toNat_one, Nat.one_shiftLeft,
    Nat.mod_eq_of_lt small]

/-- Shifting finds a digit of a counter. -/
theorem shifted_digit (word : UInt64) (fits : n < 64) :
    (word >>> UInt64.ofNat n &&& 1 == 1) = word.toNat.testBit n := by
  rw [Bool.eq_iff_iff, beq_iff_eq, ← UInt64.toNat_inj, UInt64.toNat_and, UInt64.toNat_shiftRight,
    toNat_ofNat_mod fits, UInt64.toNat_one, Nat.and_one_is_mod, Nat.shiftRight_eq_div_pow,
    Nat.testBit_eq_decide_div_mod_eq, decide_eq_true_eq]

/-- Masking finds a digit of a pattern, also where the pattern is the end of a larger number. -/
theorem masked_digit (number : Nat) (fits : n < 32) :
    (UInt32.ofNat number &&& (1 : UInt32) <<< UInt32.ofNat n != 0) = number.testBit n := by
  have small : 2 ^ n < 2 ^ 32 := Nat.pow_lt_pow_right (by omega) fits
  have place : (UInt32.ofNat n).toNat = n := UInt32.toNat_ofNat_of_lt' (Nat.lt_trans fits (by decide))
  have kept : (number % 2 ^ 32).testBit n = number.testBit n := by
    rw [Nat.testBit_mod_two_pow, decide_eq_true fits, Bool.true_and]
  rw [Bool.eq_iff_iff, bne_iff_ne, ne_eq, ← UInt32.toNat_inj, UInt32.toNat_and, UInt32.toNat_ofNat',
    UInt32.toNat_shiftLeft, place, Nat.mod_eq_of_lt fits, UInt32.toNat_one, Nat.one_shiftLeft,
    Nat.mod_eq_of_lt small, Nat.and_two_pow, kept]
  cases number.testBit n <;> simp

/-- A counter of 64 digits is wide enough for fewer than 64 terms. -/
theorem Assignment.allOf_eq_counted {terms : List Term} (fits : terms.length < 64) :
    allOf terms = counted terms := by
  refine List.ext_getElem? fun m => ?_
  rw [counted, toNat_one_shiftLeft fits, List.getElem?_map]
  by_cases below : m < 2 ^ terms.length
  · have small : 2 ^ terms.length < 2 ^ 64 := Nat.pow_lt_pow_right (by omega) fits
    have inWord : (UInt64.ofNat m).toNat = m := UInt64.toNat_ofNat_of_lt' (Nat.lt_trans below small)
    rw [getElem?_allOf terms below, List.getElem?_range below, Option.map_some, Option.some_inj]
    refine List.ext_getElem (by simp [pointOf]) fun i inZip _ => ?_
    have inside : i < terms.length := by simpa [pointOf] using inZip
    simp [pointOf, shifted_digit (UInt64.ofNat m) (by omega : terms.length - 1 - i < 64), inWord]
  · rw [List.getElem?_eq_none (by rw [length_allOf]; omega),
      List.getElem?_eq_none (by simpa using below), Option.map_none]

/-- Patterns of 32 digits are wide enough for cubes of up to 32 inputs. -/
theorem Implicant.toCube_eq_masked (fits : n ≤ 32) (p : Implicant) :
    p.toCube n = masked n (UInt32.ofNat p.mask) (UInt32.ofNat p.value) := by
  refine List.map_congr_left fun i member => ?_
  have inside : n - 1 - i < 32 := by
    have isInput := List.mem_range.mp member
    omega
  simp only [masked_digit _ inside]

end Words

/-- The assignments of distinct terms are all listed once, each at the number that its values spell,
and a counter of 64 digits lists them so for fewer than 64 terms. A truth table splits these numbers
in two, and the cube of a number contains the assignment of that number alone; for up to 32 terms a
word of 32 digits holds the number and gives its cube. The implicant of a number covers no other. -/
theorem numbering_exact :
    (∀ terms : List Term, terms.Nodup → Assignment.Counts terms (Assignment.allOf terms) ∧
      (terms.length < 64 → Assignment.allOf terms = Assignment.counted terms)) ∧
    (∀ f : Formula, TruthTable.Tabulates f (TruthTable.ofFormula f) ∧
      (f.terms.length ≤ 32 → ∀ m < 2 ^ f.terms.length, (UInt32.ofNat m).toNat = m ∧
        (Implicant.point m).toCube f.terms.length =
          Implicant.masked f.terms.length 0 (UInt32.ofNat m))) ∧
    ∀ m k, (Implicant.point m).covers k = true ↔ m = k := by
  refine ⟨fun terms distinct => ⟨Assignment.counts_allOf distinct, Assignment.allOf_eq_counted⟩,
    fun f => ⟨TruthTable.tabulates_ofFormula f, fun fits m below =>
      ⟨?_, Implicant.toCube_eq_masked fits (.point m)⟩⟩, fun m k => Implicant.covers_point⟩
  have small : 2 ^ f.terms.length ≤ 2 ^ 32 := Nat.pow_le_pow_right (by omega) fits
  exact UInt32.toNat_ofNat_of_lt' (Nat.lt_of_lt_of_le below small)

/-- Three terms of which the first alone is false, which is the number three and not six, and a
formula of two terms that fails where the first alone is true. -/
theorem numbering_exact_three :
    let terms : List Term := [.xlen .rv64, .free 0, .xlen .rv32]
    let others : Term → Bool := fun term => term != .xlen .rv64
    let f : Formula := .implies (.atom (.xlen .rv32)) (.atom (.xlen .rv64))
    terms.Nodup ∧ terms.length < 64 ∧ f.terms.length ≤ 32 ∧
      (∃ row, (Assignment.counted terms)[3]? = some row ∧ row.IsOf others terms) ∧
      (TruthTable.ofFormula f).off = [2] ∧
      ∃ row, (Assignment.allOf f.terms)[2]? = some row ∧
        Cube.Isolates f.terms row [some true, some false] := by
  intro terms others f
  have distinct : terms.Nodup := by decide
  have fewTerms : terms.length < 64 := by decide
  have isTerms : f.terms = [.xlen .rv32, .xlen .rv64] := by cbv
  have fits : f.terms.length ≤ 32 := by rw [isTerms]; decide
  have isOff : (TruthTable.ofFormula f).off = [2] := by cbv
  obtain ⟨assignments, tables, _⟩ := numbering_exact
  obtain ⟨counts, words⟩ := assignments terms distinct
  obtain ⟨tabulates, patterns⟩ := tables f
  refine ⟨distinct, fewTerms, fits, ?_, isOff, ?_⟩
  · rw [← words fewTerms]
    exact (counts.place others 3).mpr (by decide)
  · have cubes := tabulates.cubes .conjunctive
    have off : (TruthTable.ofFormula f).points .conjunctive = [2] := isOff
    rw [TruthTable.pointCubes, off, tabulates.terms, List.map_singleton] at cubes
    obtain ⟨⟨row, found, isolates⟩, _⟩ := List.forall₂_cons.mp cubes
    have masked : Implicant.masked f.terms.length 0 (UInt32.ofNat 2) = [some true, some false] := by
      rw [isTerms]
      decide
    refine ⟨row, found, ?_⟩
    rwa [(patterns fits 2 (by rw [isTerms]; decide)).2, masked] at isolates

end IsaLogic
