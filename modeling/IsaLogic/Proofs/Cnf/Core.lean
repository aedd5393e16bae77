import Mathlib.Algebra.Group.Nat.Defs
import Mathlib.Data.List.Nodup
import Mathlib.Data.Nat.Init
import IsaLogic.Cnf.Core
import IsaLogic.Proofs.Cnf.Search

/-!
# Both searches find minimal subsets

Being unsatisfiable is kept by more places (`Monotone`), and this is all that the two
searches rely on. Deletion asks for each place once: what was needed at its turn stays
needed when more places go. Trying subsets by size asks for every smaller subset first,
so an unsatisfiable subset that contains none found before is minimal, and every
unsatisfiable subset contains one that is found. A minimal subset contains no other, so
all of them are found, each once and in the order in which they were tried
(`foundAll_enumerate`).

The search decides every subset of a clause list exactly, hence the extractor gives
minimal subsets, and none just for a satisfiable list (`found_extract`); for few clauses
it gives all of them (`extract_exact`).
-/

namespace IsaLogic.Core

/-- More places than unsatisfiable ones are unsatisfiable, and no places are satisfiable. -/
structure Monotone (unsat : List Nat → Bool) : Prop where
  more : ∀ few many, few ⊆ many → unsat few = true → unsat many = true
  nothing : unsat [] = false

/-- Places that are unsatisfiable, but satisfiable without any one of them. -/
structure Minimal (unsat : List Nat → Bool) (places : List Nat) : Prop where
  isUnsat : unsat places = true
  needed : ∀ i, i < places.length → unsat (places.eraseIdx i) = false

variable {unsat : List Nat → Bool}

theorem Monotone.fewer (monotone : Monotone unsat) {few many : List Nat} (included : few ⊆ many)
    (satisfiable : unsat many = false) : unsat few = false := by
  cases isUnsat : unsat few with
  | false => rfl
  | true => rw [monotone.more few many included isUnsat] at satisfiable; cases satisfiable

/-- Minimal sets of places below a number, and none just if all these places are satisfiable. -/
structure Found (unsat : List Nat → Bool) (count : Nat) (found : List (List Nat)) : Prop where
  eq_nil_iff : found = [] ↔ unsat (List.range count) = false
  minimal : ∀ places ∈ found, Minimal unsat places
  within : ∀ places ∈ found, places.Sublist (List.range count)

/-- All minimal sets of places below a number, each once, and none before a smaller one. -/
structure FoundAll (unsat : List Nat → Bool) (count : Nat) (found : List (List Nat)) : Prop where
  mem_iff : ∀ places, places ∈ found ↔
    Minimal unsat places ∧ places.Pairwise (· < ·) ∧ ∀ place ∈ places, place < count
  nodup : found.Nodup
  sorted : found.Pairwise fun a b => a.length ≤ b.length

theorem found_nil {count : Nat} (satisfiable : unsat (List.range count) = false) :
    Found unsat count [] where
  eq_nil_iff := iff_of_true rfl satisfiable
  minimal _ member := nomatch member
  within _ member := nomatch member

/-- A question about places whose answers are given. -/
abbrev answering (unsat : List Nat → Bool) : List Nat → Id Bool := fun places => pure (unsat places)

section Shrinking

/-- One step of deletion: the place goes if the others are unsatisfiable without it. -/
theorem shrinkFrom_cons (unsat : List Nat → Bool) (kept left : List Nat) (place : Nat) :
    Id.run (shrinkFrom (answering unsat) kept (place :: left)) =
      if unsat (kept ++ left) then Id.run (shrinkFrom (answering unsat) kept left)
      else Id.run (shrinkFrom (answering unsat) (kept ++ [place]) left) := by
  cases again : unsat (kept ++ left) <;> simp [shrinkFrom, again]

theorem sublist_shrinkFrom (unsat : List Nat → Bool) (kept left : List Nat) :
    (Id.run (shrinkFrom (answering unsat) kept left)).Sublist (kept ++ left) := by
  induction left generalizing kept with
  | nil => rw [List.append_nil]; exact List.Sublist.refl kept
  | cons place left ih =>
    rw [shrinkFrom_cons]
    split
    · exact (ih kept).trans ((List.sublist_cons_self place left).append_left kept)
    · simpa using ih (kept ++ [place])

/-- Deletion keeps what is needed: the places kept so far, and those it goes on to keep. -/
theorem minimal_shrinkFrom (monotone : Monotone unsat) {kept left : List Nat}
    (isUnsat : unsat (kept ++ left) = true)
    (needed : ∀ i, i < kept.length → unsat (kept.eraseIdx i ++ left) = false) :
    Minimal unsat (Id.run (shrinkFrom (answering unsat) kept left)) := by
  induction left generalizing kept with
  | nil =>
    simp only [List.append_nil] at isUnsat needed
    exact ⟨isUnsat, needed⟩
  | cons place left ih =>
    rw [shrinkFrom_cons]
    cases again : unsat (kept ++ left) with
    | true =>
      rw [if_pos rfl]
      refine ih again fun i inside => monotone.fewer ?_ (needed i inside)
      exact ((List.sublist_cons_self place left).append_left _).subset
    | false =>
      rw [if_neg Bool.false_ne_true]
      refine ih (by simpa using isUnsat) fun i inside => ?_
      rcases Nat.lt_or_ge i kept.length with before | last
      · rw [List.eraseIdx_append_of_lt_length before, List.append_assoc]
        exact needed i before
      · have isLast : i = kept.length := by simp at inside; omega
        rw [List.eraseIdx_append_of_length_le last, isLast]
        simpa using again

theorem found_shrink (monotone : Monotone unsat) {count : Nat}
    (isUnsat : unsat (List.range count) = true) :
    Found unsat count [Id.run (shrink (answering unsat) (List.range count))] where
  eq_nil_iff := by simp [isUnsat]
  minimal := List.forall_mem_singleton.mpr (minimal_shrinkFrom monotone isUnsat (by simp))
  within := List.forall_mem_singleton.mpr (sublist_shrinkFrom unsat [] _)

end Shrinking

section Masks

variable {count mask : Nat}

theorem nodup_members (count mask : Nat) : (members count mask).Nodup :=
  List.nodup_range.sublist List.filter_sublist

theorem mem_members {place : Nat} :
    place ∈ members count mask ↔ place < count ∧ mask.testBit place = true := by
  rw [members, List.mem_filter, List.mem_range]

/-- Clearing a digit takes its place away. -/
theorem members_clear {place : Nat} (isSet : mask.testBit place = true) :
    members count (mask ^^^ 2 ^ place) = (members count mask).filter (· != place) := by
  rw [members, members, List.filter_filter]
  refine List.filter_congr fun other _ => ?_
  rw [Nat.testBit_xor, Nat.testBit_two_pow]
  by_cases same : place = other
  · subst same
    simp [isSet]
  · simp [same, Ne.symm same]

/-- Leaving out a member is clearing its digit. -/
theorem eraseIdx_members {i : Nat} (inside : i < (members count mask).length) :
    (members count mask).eraseIdx i =
      members count (mask ^^^ 2 ^ (members count mask)[i]) := by
  have isSet := (mem_members.mp (List.getElem_mem inside)).2
  rw [members_clear isSet, ← (nodup_members count mask).erase_eq_filter,
    (nodup_members count mask).erase_getElem]

theorem length_members (count mask : Nat) : (members count mask).length = ones count mask :=
  List.countP_eq_length_filter.symm

theorem ones_clear_lt {place : Nat} (member : place ∈ members count mask) :
    ones count (mask ^^^ 2 ^ place) < ones count mask := by
  rw [← length_members, ← length_members, members_clear (mem_members.mp member).2,
    List.length_filter_lt_length_iff_exists]
  exact ⟨place, member, by simp⟩

theorem members_zero (count : Nat) : members count 0 = [] := by
  simp [members]

theorem pairwise_members (count mask : Nat) : (members count mask).Pairwise (· < ·) :=
  List.pairwise_lt_range.sublist List.filter_sublist

theorem members_eq_of_subset {other : Nat} (included : members count mask ⊆ members count other)
    (back : members count other ⊆ members count mask) :
    members count mask = members count other := by
  refine List.filter_congr fun place inRange => ?_
  have below := List.mem_range.mp inRange
  rw [Bool.eq_iff_iff]
  constructor
  · intro isSet
    exact (mem_members.mp (included (mem_members.mpr ⟨below, isSet⟩))).2
  · intro isSet
    exact (mem_members.mp (back (mem_members.mpr ⟨below, isSet⟩))).2

theorem members_subset_of_and {other : Nat} (inside : mask &&& other = other) :
    members count other ⊆ members count mask := by
  intro place member
  obtain ⟨below, isSet⟩ := mem_members.mp member
  have atPlace := congrArg (Nat.testBit · place) inside
  exact mem_members.mpr ⟨below, by simpa [isSet] using atPlace⟩

/-- A number of `count` binary digits is known from the places of its ones. -/
theorem members_injective {other : Nat} (bounded : mask < 2 ^ count) (otherBounded : other < 2 ^ count)
    (same : members count mask = members count other) : mask = other := by
  apply Nat.eq_of_testBit_eq
  intro place
  by_cases inside : place < count
  · have atPlace : place ∈ members count mask ↔ place ∈ members count other := by rw [same]
    simp only [mem_members, inside, true_and] at atPlace
    exact Bool.eq_iff_iff.mpr atPlace
  · have atLeast : 2 ^ count ≤ 2 ^ place := Nat.pow_le_pow_right (by decide) (by omega)
    rw [Nat.testBit_lt_two_pow (Nat.lt_of_lt_of_le bounded atLeast),
      Nat.testBit_lt_two_pow (Nat.lt_of_lt_of_le otherBounded atLeast)]

/-- Ascending places are those of the ones of some number. -/
theorem exists_members {places : List Nat} (ascending : places.Pairwise (· < ·))
    (within : ∀ place ∈ places, place < count) :
    ∃ mask, mask < 2 ^ count ∧ members count mask = places := by
  refine ⟨Nat.ofBits fun place : Fin count => decide (place.val ∈ places),
    Nat.ofBits_lt_two_pow _, ?_⟩
  -- both lists ascend and have the same elements
  have perm : (members count (Nat.ofBits fun place : Fin count =>
      decide (place.val ∈ places))).Perm places := by
    refine (List.perm_ext_iff_of_nodup (nodup_members count _) ascending.nodup).mpr fun place => ?_
    rw [mem_members]
    constructor
    · rintro ⟨inside, isOne⟩
      simpa [Nat.testBit_ofBits_lt _ place inside] using isOne
    · intro member
      have inside := within place member
      exact ⟨inside, by simpa [Nat.testBit_ofBits_lt _ place inside] using member⟩
  refine perm.eq_of_pairwise (fun a b _ _ before after => ?_) (pairwise_members count _) ascending
  omega

theorem members_full (count : Nat) : members count (2 ^ count - 1) = List.range count := by
  refine List.filter_eq_self.mpr fun place inside => ?_
  rw [Nat.testBit_two_pow_sub_one, decide_eq_true (List.mem_range.mp inside)]

theorem mem_subsets : mask ∈ subsets count ↔ mask ≠ 0 ∧ mask < 2 ^ count := by
  rw [subsets, (List.mergeSort_perm _ _).mem_iff, List.range_eq_range', List.drop_range',
    List.mem_range'_1]
  change 0 + 1 * 1 ≤ mask ∧ mask < 0 + 1 * 1 + (2 ^ count - 1) ↔ _
  have positive := Nat.two_pow_pos count
  omega

theorem sorted_subsets (count : Nat) :
    (subsets count).Pairwise fun a b => ones count a ≤ ones count b := by
  refine (List.pairwise_mergeSort (fun a b c => ?_) (fun a b => ?_) _).imp of_decide_eq_true
  · simpa only [decide_eq_true_eq] using Nat.le_trans
  · simpa only [Bool.or_eq_true, decide_eq_true_eq] using Nat.le_total _ _

/-- An unsatisfiable subset is not empty, so it is tried. -/
theorem Monotone.mem_subsets (monotone : Monotone unsat) (bounded : mask < 2 ^ count)
    (isUnsat : unsat (members count mask) = true) : mask ∈ subsets count := by
  refine Core.mem_subsets.mpr ⟨?_, bounded⟩
  rintro rfl
  rw [members_zero, monotone.nothing] at isUnsat
  cases isUnsat

theorem nodup_subsets (count : Nat) : (subsets count).Nodup := by
  apply (List.mergeSort_perm _ _).nodup_iff.mpr
  exact List.nodup_range.sublist (List.drop_sublist 1 _)

end Masks

section Enumeration

variable {count : Nat} {done found : List Nat}

/-- What has been found once some subsets were tried: minimal subsets, and one inside of each
unsatisfiable subset. -/
structure Tried (count : Nat) (unsat : List Nat → Bool) (done found : List Nat) : Prop where
  minimal : ∀ mask ∈ found, Minimal unsat (members count mask)
  covered : ∀ mask ∈ done, unsat (members count mask) = true → ∃ f ∈ found, mask &&& f = f

/-- After all smaller subsets, an unsatisfiable one that contains none found before is minimal. -/
theorem Tried.minimal_of_fresh (tried : Tried count unsat done found) (monotone : Monotone unsat)
    {mask : Nat} (bounded : mask < 2 ^ count)
    (smaller : ∀ other ∈ subsets count, ones count other < ones count mask → other ∈ done)
    (fresh : ∀ f ∈ found, mask &&& f ≠ f) (isUnsat : unsat (members count mask) = true) :
    Minimal unsat (members count mask) := by
  refine ⟨isUnsat, fun i inside => ?_⟩
  have member := List.getElem_mem inside
  rw [eraseIdx_members inside]
  generalize (members count mask)[i] = place at member
  obtain ⟨small, isSet⟩ := mem_members.mp member
  refine Bool.eq_false_iff.mpr fun isUnsatToo => ?_
  have isSubset : mask ^^^ 2 ^ place ∈ subsets count :=
    monotone.mem_subsets (Nat.xor_lt_two_pow bounded (Nat.pow_lt_pow_right (by decide) small))
      isUnsatToo
  obtain ⟨f, isFound, inside⟩ :=
    tried.covered _ (smaller _ isSubset (ones_clear_lt member)) isUnsatToo
  -- what is inside the smaller subset is inside this one
  refine fresh f isFound (Nat.eq_of_testBit_eq fun digit => ?_)
  have atDigit := congrArg (Nat.testBit · digit) inside
  simp only [Nat.testBit_and, Nat.testBit_xor, Nat.testBit_two_pow] at atDigit ⊢
  by_cases same : place = digit
  · subst same
    rw [isSet, Bool.true_and]
  · simpa [same] using atDigit

/-- One step of trying subsets: a subset is found if it contains none found before and is
unsatisfiable. -/
theorem enumerateFrom_cons (count : Nat) (unsat : List Nat → Bool) (found rest : List Nat)
    (mask : Nat) :
    Id.run (enumerateFrom count (answering unsat) found (mask :: rest)) =
      if !(found.any fun f => mask &&& f == f) && unsat (members count mask) then
        Id.run (enumerateFrom count (answering unsat) (found ++ [mask]) rest)
      else Id.run (enumerateFrom count (answering unsat) found rest) := by
  cases contains : found.any fun f => mask &&& f == f <;>
    cases isUnsat : unsat (members count mask) <;> simp [enumerateFrom, contains, isUnsat]

theorem tried_enumerateFrom (monotone : Monotone unsat) {rest : List Nat}
    (order : subsets count = done ++ rest) (tried : Tried count unsat done found) :
    Tried count unsat (subsets count)
      (Id.run (enumerateFrom count (answering unsat) found rest)) := by
  induction rest generalizing done found with
  | nil =>
    rw [order, List.append_nil]
    exact tried
  | cons mask rest ih =>
    have later : subsets count = (done ++ [mask]) ++ rest := by rw [order]; simp
    have isSubset : mask ∈ subsets count := by rw [order]; simp
    rw [enumerateFrom_cons]
    split
    · rename_i finds
      simp only [Bool.and_eq_true, Bool.not_eq_true', List.any_eq_false, beq_iff_eq] at finds
      obtain ⟨fresh, isUnsat⟩ := finds
      have smaller : ∀ other ∈ subsets count,
          ones count other < ones count mask → other ∈ done := by
        intro other isOther fewer
        rw [order, List.mem_append, List.mem_cons] at isOther
        have sorted := sorted_subsets count
        rw [order, List.pairwise_append, List.pairwise_cons] at sorted
        rcases isOther with before | rfl | after
        · exact before
        · omega
        · have := sorted.2.1.1 other after
          omega
      refine ih later ⟨fun other isFound => ?_, fun other isDone isUnsatOther => ?_⟩
      · rcases List.mem_append.mp isFound with before | isMask
        · exact tried.minimal other before
        · rw [List.mem_singleton.mp isMask]
          exact tried.minimal_of_fresh monotone (mem_subsets.mp isSubset).2 smaller fresh isUnsat
      · rcases List.mem_append.mp isDone with before | isMask
        · obtain ⟨f, isFound, inside⟩ := tried.covered other before isUnsatOther
          exact ⟨f, List.mem_append_left _ isFound, inside⟩
        · exact ⟨mask, by simp, by rw [List.mem_singleton.mp isMask, Nat.and_self]⟩
    · rename_i passes
      refine ih later ⟨tried.minimal, fun other isDone isUnsatOther => ?_⟩
      rcases List.mem_append.mp isDone with before | isMask
      · exact tried.covered other before isUnsatOther
      · rw [List.mem_singleton.mp isMask] at isUnsatOther ⊢
        simpa [isUnsatOther] using passes

theorem sublist_enumerateFrom (unsat : List Nat → Bool) (found rest : List Nat) :
    (Id.run (enumerateFrom count (answering unsat) found rest)).Sublist (found ++ rest) := by
  induction rest generalizing found with
  | nil =>
    rw [List.append_nil]
    exact List.Sublist.refl found
  | cons mask rest ih =>
    rw [enumerateFrom_cons]
    split
    · simpa using ih (found ++ [mask])
    · exact (ih found).trans ((List.sublist_cons_self mask rest).append_left found)

/-- What is unsatisfiable inside of a minimal subset lacks none of its places, since without any one
of them it would be satisfiable. -/
theorem Minimal.eq_of_subset (monotone : Monotone unsat) {mask other : Nat}
    (minimal : Minimal unsat (members count mask))
    (included : members count other ⊆ members count mask)
    (isUnsat : unsat (members count other) = true) : members count other = members count mask := by
  refine members_eq_of_subset included fun place member => ?_
  apply Classical.byContradiction
  intro lacks
  obtain ⟨i, inside, rfl⟩ := List.getElem_of_mem member
  have needed := minimal.needed i inside
  have isSet := (mem_members.mp member).2
  rw [eraseIdx_members inside, members_clear isSet] at needed
  have left : members count other ⊆
      (members count mask).filter (· != (members count mask)[i]) := by
    intro kept isKept
    refine List.mem_filter.mpr ⟨included isKept, bne_iff_ne.mpr ?_⟩
    rintro rfl
    exact lacks isKept
  rw [monotone.more _ _ left isUnsat] at needed
  cases needed

/-- Once all subsets were tried, every minimal one has been found. -/
theorem Tried.exists_of_minimal (tried : Tried count unsat (subsets count) found)
    (monotone : Monotone unsat) {mask : Nat} (bounded : mask < 2 ^ count)
    (minimal : Minimal unsat (members count mask)) :
    ∃ f ∈ found, members count f = members count mask := by
  have isSubset := monotone.mem_subsets bounded minimal.isUnsat
  obtain ⟨f, isFound, inside⟩ := tried.covered mask isSubset minimal.isUnsat
  exact ⟨f, isFound, minimal.eq_of_subset monotone (members_subset_of_and inside)
    (tried.minimal f isFound).isUnsat⟩

/-- The subsets that are found when all are tried. -/
abbrev foundMasks (count : Nat) (unsat : List Nat → Bool) : List Nat :=
  Id.run (enumerateFrom count (answering unsat) [] (subsets count))

theorem tried_foundMasks (monotone : Monotone unsat) :
    Tried count unsat (subsets count) (foundMasks count unsat) :=
  tried_enumerateFrom monotone (List.nil_append (subsets count)).symm ⟨by simp, by simp⟩

theorem sublist_foundMasks (count : Nat) (unsat : List Nat → Bool) :
    (foundMasks count unsat).Sublist (subsets count) :=
  sublist_enumerateFrom unsat [] (subsets count)

theorem found_enumerate (monotone : Monotone unsat) (isUnsat : unsat (List.range count) = true) :
    Found unsat count (Id.run (enumerate count (answering unsat))) := by
  have tried : Tried count unsat _ _ := tried_foundMasks monotone
  change Found unsat count ((foundMasks count unsat).map (members count))
  refine ⟨iff_of_false ?_ (by simp [isUnsat]), ?_, ?_⟩
  · rw [← members_full] at isUnsat
    have isSubset := monotone.mem_subsets
      (Nat.sub_lt (Nat.two_pow_pos count) Nat.one_pos) isUnsat
    obtain ⟨f, isFound, _⟩ := tried.covered _ isSubset isUnsat
    exact List.ne_nil_of_mem (List.mem_map_of_mem isFound)
  · exact List.forall_mem_map.mpr tried.minimal
  · exact List.forall_mem_map.mpr fun mask _ => List.filter_sublist

theorem foundAll_enumerate (monotone : Monotone unsat) :
    FoundAll unsat count (Id.run (enumerate count (answering unsat))) := by
  have tried : Tried count unsat _ _ := tried_foundMasks monotone
  have sublist := sublist_foundMasks count unsat
  change FoundAll unsat count ((foundMasks count unsat).map (members count))
  refine ⟨fun places => ?_, ?_, ?_⟩
  · rw [List.mem_map]
    constructor
    · rintro ⟨mask, isFound, rfl⟩
      exact ⟨tried.minimal mask isFound, pairwise_members count mask,
        fun place member => (mem_members.mp member).1⟩
    · rintro ⟨minimal, ascending, within⟩
      obtain ⟨mask, bounded, rfl⟩ := exists_members ascending within
      exact tried.exists_of_minimal monotone bounded minimal
  · apply List.pairwise_map.mpr
    apply ((nodup_subsets count).sublist sublist).imp_of_mem
    intro mask other isFound isOther differ same
    exact differ (members_injective (mem_subsets.mp (sublist.mem isFound)).2
      (mem_subsets.mp (sublist.mem isOther)).2 same)
  · apply List.pairwise_map.mpr
    simpa only [length_members] using (sorted_subsets count).sublist sublist

end Enumeration

section Extraction

variable {cnf : Cnf}

theorem mem_clausesAt {clauses : List (List Int)} {places : List Nat} {clause : List Int} :
    clause ∈ clausesAt clauses places ↔ ∃ place ∈ places, clauses[place]? = some clause := by
  rw [clausesAt, List.mem_filterMap]

theorem clausesAt_range (clauses : List (List Int)) :
    clausesAt clauses (List.range clauses.length) = clauses := by
  induction clauses with
  | nil => rfl
  | cons clause rest ih =>
    rw [clausesAt, List.length_cons, List.range_succ_eq_map, List.filterMap_cons, List.filterMap_map]
    exact congrArg (clause :: ·) ih

/-- The search decides whether the clauses at some places are satisfiable. -/
theorem isUnsat_iff (inRange : Cnf.InRange (cnf.numVars + 1) cnf.clauses) (places : List Nat) :
    isUnsat cnf places = true ↔
      ¬ ∃ valuation, Cnf.clausesHold valuation (clausesAt cnf.clauses places) = true := by
  have chosenInRange : Cnf.InRange (cnf.numVars + 1) (clausesAt cnf.clauses places) := by
    intro clause member
    obtain ⟨place, _, isClause⟩ := mem_clausesAt.mp member
    exact inRange clause (List.mem_of_getElem? isClause)
  rw [isUnsat, Option.isNone_iff_eq_none]
  exact Cnf.findModel_eq_none_iff chosenInRange

theorem monotone_isUnsat (inRange : Cnf.InRange (cnf.numVars + 1) cnf.clauses) :
    Monotone (isUnsat cnf) where
  more few many included isUnsat := by
    rw [isUnsat_iff inRange] at isUnsat ⊢
    rintro ⟨valuation, truth⟩
    refine isUnsat ⟨valuation, List.all_eq_true.mpr fun clause member => ?_⟩
    obtain ⟨place, isPlace, isClause⟩ := mem_clausesAt.mp member
    exact List.all_eq_true.mp truth clause (mem_clausesAt.mpr ⟨place, included isPlace, isClause⟩)
  nothing := by
    rw [Bool.eq_false_iff, Ne, isUnsat_iff inRange, Classical.not_not]
    exact ⟨fun _ => true, rfl⟩

theorem extract_of_isUnsat (verdict : isUnsat cnf (List.range cnf.clauses.length) = true)
    (maxExhaustive : Nat) :
    extract maxExhaustive cnf =
      if cnf.clauses.length ≤ min maxExhaustive maxEnumerated then
        Id.run (enumerate cnf.clauses.length (answering (isUnsat cnf)))
      else [Id.run (shrink (answering (isUnsat cnf)) (List.range cnf.clauses.length))] := by
  simp [extract, verdict]

/-- The extractor finds minimal subsets, and none just if the clauses are satisfiable. -/
theorem found_extract (inRange : Cnf.InRange (cnf.numVars + 1) cnf.clauses) (maxExhaustive : Nat) :
    Found (isUnsat cnf) cnf.clauses.length (extract maxExhaustive cnf) := by
  have monotone := monotone_isUnsat inRange
  cases verdict : isUnsat cnf (List.range cnf.clauses.length) with
  | false =>
    rw [extract, verdict]
    exact found_nil verdict
  | true =>
    rw [extract_of_isUnsat verdict]
    split
    · exact found_enumerate monotone verdict
    · exact found_shrink monotone verdict

/-- Ascending places of clauses that no valuation makes true together, while some valuation makes
those true that are left without any one of them. -/
structure IsMinimalSubset (clauses : List (List Int)) (places : List Nat) : Prop where
  ascending : places.Pairwise (· < ·)
  within : ∀ place ∈ places, place < clauses.length
  unsatisfiable : ¬ Cnf.Satisfiable (clausesAt clauses places)
  needed : ∀ place ∈ places, Cnf.Satisfiable (clausesAt clauses (places.erase place))

theorem isUnsat_eq_false_iff (inRange : Cnf.InRange (cnf.numVars + 1) cnf.clauses)
    (places : List Nat) :
    isUnsat cnf places = false ↔ Cnf.Satisfiable (clausesAt cnf.clauses places) := by
  rw [Bool.eq_false_iff, Ne, isUnsat_iff inRange, Classical.not_not, Cnf.Satisfiable]

theorem isMinimalSubset_iff (inRange : Cnf.InRange (cnf.numVars + 1) cnf.clauses)
    {places : List Nat} :
    IsMinimalSubset cnf.clauses places ↔ Minimal (isUnsat cnf) places ∧
      places.Pairwise (· < ·) ∧ ∀ place ∈ places, place < cnf.clauses.length := by
  constructor
  · rintro ⟨ascending, within, unsatisfiable, needed⟩
    refine ⟨⟨(isUnsat_iff inRange places).mpr unsatisfiable, fun i inside => ?_⟩, ascending, within⟩
    rw [isUnsat_eq_false_iff inRange, ← ascending.nodup.erase_getElem i inside]
    exact needed _ (List.getElem_mem inside)
  · rintro ⟨minimal, ascending, within⟩
    refine ⟨ascending, within, (isUnsat_iff inRange places).mp minimal.isUnsat, ?_⟩
    intro place member
    obtain ⟨i, inside, rfl⟩ := List.getElem_of_mem member
    rw [ascending.nodup.erase_getElem i inside, ← isUnsat_eq_false_iff inRange]
    exact minimal.needed i inside

/-- The extractor is exact. It finds no subset just if the clauses are satisfiable. Of unsatisfiable
clauses that are few enough, it finds all minimal subsets, each once and none before a smaller one;
of more clauses it finds one minimal subset. -/
theorem extract_exact (inRange : Cnf.InRange (cnf.numVars + 1) cnf.clauses) (maxExhaustive : Nat) :
    (extract maxExhaustive cnf = [] ↔ Cnf.Satisfiable cnf.clauses) ∧
      (¬ Cnf.Satisfiable cnf.clauses →
        if cnf.clauses.length ≤ min maxExhaustive 31 then
          (∀ places, places ∈ extract maxExhaustive cnf ↔ IsMinimalSubset cnf.clauses places) ∧
            (extract maxExhaustive cnf).Nodup ∧
            (extract maxExhaustive cnf).Pairwise fun a b => a.length ≤ b.length
        else ∃ places, extract maxExhaustive cnf = [places] ∧
          IsMinimalSubset cnf.clauses places) := by
  have found := found_extract inRange maxExhaustive
  have isSat : isUnsat cnf (List.range cnf.clauses.length) = false ↔
      Cnf.Satisfiable cnf.clauses := by
    rw [isUnsat_eq_false_iff inRange, clausesAt_range]
  refine ⟨found.eq_nil_iff.trans isSat, fun unsatisfiable => ?_⟩
  have isExtracted := extract_of_isUnsat (Bool.eq_false_imp_eq_true.mp fun verdict =>
    absurd (isSat.mp verdict) unsatisfiable) maxExhaustive
  by_cases few : cnf.clauses.length ≤ min maxExhaustive 31
  · have all : FoundAll _ cnf.clauses.length _ := foundAll_enumerate (monotone_isUnsat inRange)
    rw [if_pos few, isExtracted, maxEnumerated, if_pos few]
    simpa only [isMinimalSubset_iff inRange] using ⟨all.mem_iff, all.nodup, all.sorted⟩
  · rw [isExtracted, maxEnumerated, if_neg few] at found
    rw [if_neg few, isExtracted, maxEnumerated, if_neg few]
    refine ⟨_, rfl, (isMinimalSubset_iff inRange).mpr ?_⟩
    have sublist := found.within _ (List.mem_singleton_self _)
    exact ⟨found.minimal _ (List.mem_singleton_self _), List.pairwise_lt_range.sublist sublist,
      fun place member => List.mem_range.mp (sublist.mem member)⟩

/-- Two contradictions among four clauses. If three clauses are already too many, one subset is
found. -/
theorem extract_exact_two_contradictions :
    let cnf : Cnf := { numVars := 2, clauses := [[1], [-1], [2], [-2]] }
    Cnf.InRange (cnf.numVars + 1) cnf.clauses ∧ ¬ Cnf.Satisfiable cnf.clauses ∧
      [0, 1] ∈ extract 4 cnf ∧ [0, 2] ∉ extract 4 cnf ∧ ∃ places, extract 3 cnf = [places] := by
  intro cnf
  have inRange : Cnf.InRange (cnf.numVars + 1) cnf.clauses := by simp [cnf, Cnf.InRange]
  have unsatisfiable : ¬ Cnf.Satisfiable cnf.clauses := by
    rintro ⟨valuation, truth⟩
    simp [cnf, Cnf.clausesHold, Cnf.literalHolds] at truth
  have all := (extract_exact inRange 4).2 unsatisfiable
  have one := (extract_exact inRange 3).2 unsatisfiable
  rw [if_pos (by decide)] at all
  rw [if_neg (by decide)] at one
  refine ⟨inRange, unsatisfiable, (all.1 [0, 1]).mpr ⟨by decide, by decide, ?_, ?_⟩, ?_, ?_⟩
  · rintro ⟨valuation, truth⟩
    simp [cnf, clausesAt, Cnf.clausesHold, Cnf.literalHolds] at truth
  · have holds : ∀ place ∈ [0, 1], Cnf.clausesHold (fun _ => place == 1)
        (clausesAt cnf.clauses ([0, 1].erase place)) = true := by decide
    exact fun place member => ⟨_, holds place member⟩
  · intro isFound
    exact ((all.1 [0, 2]).mp isFound).unsatisfiable ⟨fun _ => true, by decide⟩
  · obtain ⟨places, isOnly, _⟩ := one
    exact ⟨places, isOnly⟩

end Extraction

end IsaLogic.Core
