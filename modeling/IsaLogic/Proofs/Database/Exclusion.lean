import IsaLogic.Proofs.Database.Exploration

/-!
# What visited terms say of each other

The formulas that an expansion adds for pairs of visited terms, read as conditions on
a valuation: at most one of the visited versions of an extension is implemented, and
the register width is one of the two.
-/

namespace IsaLogic.Database

section Exclusions

variable {db : Database} {visited : List Term} {name : String}

/-- The visited versions of an extension that the database lists. -/
def listedVersions (db : Database) (visited : List Term) (name : String) : List Version :=
  ascending ((((visited.filterMap Term.extension?).filter fun ext =>
    ext.isExact && (db.versions ext.name).contains ext.version).filter fun ext =>
      ext.name == name).map ExtensionTerm.version)

/-- No two of some versions of an extension are implemented. -/
def exclusion (name : String) (versions : List Version) : Formula :=
  let each := versions.map fun version => Formula.atom (.extension (.exact name version))
  Formula.anyOf [Formula.nor each, Formula.oneOf each]

theorem extension?_eq_some {term : Term} {ext : ExtensionTerm} :
    term.extension? = some ext ↔ term = .extension ext := by
  cases term <;> simp [Term.extension?]

theorem mem_listedVersions {version : Version} :
    version ∈ db.listedVersions visited name ↔
      .extension (.exact name version) ∈ visited ∧ version ∈ db.versions name := by
  simp only [listedVersions, mem_ascending, List.mem_map, List.mem_filter, List.mem_filterMap,
    extension?_eq_some, Bool.and_eq_true, List.contains_iff_mem, beq_iff_eq]
  constructor
  · rintro ⟨ext, ⟨⟨⟨_, seen, rfl⟩, exact, listed⟩, rfl⟩, rfl⟩
    rw [← eq_exact_of_isExact exact]
    exact ⟨seen, listed⟩
  · rintro ⟨seen, listed⟩
    exact ⟨_, ⟨⟨⟨_, seen, rfl⟩, rfl, listed⟩, rfl⟩, rfl⟩

/-- Terms visited once give versions listed once. -/
theorem nodup_listedVersions (distinct : visited.Nodup) : (db.listedVersions visited name).Nodup := by
  refine nodup_ascending ?_
  have distinctExts : (visited.filterMap Term.extension?).Nodup := by
    refine List.Pairwise.filterMap _ (fun a b differ ext isA other isB => ?_) distinct
    rw [extension?_eq_some.mp isA, extension?_eq_some.mp isB] at differ
    rintro rfl
    exact differ rfl
  -- all that is left are exact terms of one name, which differ in their versions
  refine List.Pairwise.map _ (fun a b both same => ?_) (List.Pairwise.and_mem.mp
    ((distinctExts.sublist List.filter_sublist).sublist List.filter_sublist))
  obtain ⟨inA, inB, differ⟩ := both
  simp only [List.mem_filter, Bool.and_eq_true, beq_iff_eq] at inA inB
  refine differ ?_
  rw [eq_exact_of_isExact inA.1.2.1, eq_exact_of_isExact inB.1.2.1, inA.2, inB.2, same]

theorem mem_exclusions {f : Formula} :
    f ∈ db.exclusions visited ↔ ∃ name, 2 ≤ (db.listedVersions visited name).length ∧
      f = exclusion name (db.listedVersions visited name) := by
  simp only [exclusions, List.mem_filterMap, mem_ascending]
  constructor
  · rintro ⟨name, _, added⟩
    split at added
    · cases added
    · rename_i several
      cases added
      exact ⟨name, Nat.le_of_not_lt several, rfl⟩
  · rintro ⟨name, several, rfl⟩
    refine ⟨name, ?_, if_neg (Nat.not_lt_of_le several)⟩
    obtain ⟨version, member⟩ := List.exists_mem_of_length_pos (Nat.lt_of_lt_of_le Nat.two_pos several)
    obtain ⟨seen, listed⟩ := mem_listedVersions.mp member
    refine List.mem_map.mpr ⟨.exact name version, List.mem_filter.mpr ⟨?_, ?_⟩, rfl⟩
    · exact List.mem_filterMap.mpr ⟨_, seen, rfl⟩
    · simpa [ExtensionTerm.isExact, ExtensionTerm.exact] using listed

/-- An exclusion holds if at most one of the versions is implemented. -/
theorem holds_exclusion {valuation : Term → Bool} {versions : List Version} :
    (exclusion name versions).holds valuation = true ↔
      (versions.map fun version => Formula.atom (.extension (.exact name version))).countP
        (Formula.holds valuation) ≤ 1 := by
  simp only [exclusion, Formula.holds_anyOf, List.any_cons, List.any_nil, Formula.holds_nor,
    Formula.holds_oneOf, Bool.or_false, Bool.or_eq_true, beq_iff_eq, Bool.not_eq_true']
  have none : (versions.map fun version => Formula.atom (.extension (.exact name version))).any
      (Formula.holds valuation) = false ↔ (versions.map fun version =>
        Formula.atom (.extension (.exact name version))).countP (Formula.holds valuation) = 0 := by
    rw [List.countP_eq_zero, List.any_eq_false]
  rw [none]
  omega

end Exclusions

section Relations

variable {visited : List Term} {f : Formula}

theorem parameter?_eq_some {term : Term} {param : ParamTerm} :
    term.parameter? = some param ↔ term = .parameter param := by
  cases term <;> simp [Term.parameter?]

theorem mem_relations : f ∈ relations visited ↔ ∃ term other,
    .parameter term ∈ visited ∧ .parameter other ∈ visited ∧ relation? term other = some f := by
  simp only [relations, List.mem_flatMap, List.mem_filterMap, parameter?_eq_some]
  constructor
  · rintro ⟨term, ⟨_, isTerm, rfl⟩, other, ⟨_, isOther, rfl⟩, related⟩
    exact ⟨term, other, isTerm, isOther, related⟩
  · rintro ⟨term, other, isTerm, isOther, related⟩
    exact ⟨term, ⟨_, isTerm, rfl⟩, other, ⟨_, isOther, rfl⟩, related⟩

theorem mem_widths : f ∈ widths visited ↔ (∃ width, .xlen width ∈ visited) ∧
    f = Formula.oneOf (Xlen.both.map fun width => .atom (.xlen width)) := by
  have asked : (visited.any fun term => term == .xlen .rv32 || term == .xlen .rv64) = true ↔
      ∃ width, .xlen width ∈ visited := by
    simp only [List.any_eq_true, Bool.or_eq_true, beq_iff_eq]
    constructor
    · rintro ⟨_, member, rfl | rfl⟩
      · exact ⟨_, member⟩
      · exact ⟨_, member⟩
    · rintro ⟨width, member⟩
      exact ⟨_, member, by cases width <;> simp⟩
  unfold widths
  split
  · rename_i isAsked
    rw [List.mem_singleton, and_iff_right (asked.mp isAsked)]
  · rename_i notAsked
    exact iff_of_false List.not_mem_nil fun ⟨seen, _⟩ => notAsked (asked.mpr seen)

end Relations

end IsaLogic.Database
