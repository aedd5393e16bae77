import IsaLogic.Proofs.Database.Inheritance

/-!
# Expansions are saturated

An expansion leads to no term that its formula does not lead to, the other register width apart
(`reaches_of_expand`). What a second expansion derives was therefore derived by the first: the same
contributions, relations and widths, and exclusions among no more versions. Hence expanding again
succeeds and changes no truth value (`expand_expand`).
-/

namespace IsaLogic.Database

variable {db : Database} {root f : Formula}

/-- What an expansion leads to its formula leads to, or it is a width, and the formula leads to a
width. -/
theorem reaches_of_expand (expanded : db.expand root = .ok f) {term : Term}
    (reaches : db.Reaches f term) : db.Reaches root term ∨
      (∃ width, term = .xlen width) ∧ ∃ seen, db.Reaches root (.xlen seen) := by
  induction reaches with
  | root occurs => exact mentionsOnly_expand expanded _ occurs
  | requirement _ requires compiled occurs ih =>
    rcases ih with reached | ⟨⟨width, rfl⟩, _⟩
    · exact .inl (.requirement reached requires compiled occurs)
    · cases requires
  | admitted _ isRange listed accepted ih =>
    rcases ih with reached | ⟨⟨width, isWidth⟩, _⟩
    · exact .inl (.admitted reached isRange listed accepted)
    · cases isWidth

/-- A second expansion meets no requirement that the first has not met. -/
theorem CompilesFrom.expand (compiles : db.CompilesFrom root) (expanded : db.expand root = .ok f) :
    db.CompilesFrom f := by
  intro term clause reaches requires
  rcases reaches_of_expand expanded reaches with reached | ⟨⟨width, rfl⟩, _⟩
  · exact compiles term clause reached requires
  · cases requires

section Derived

variable {visited again : List Term} {valuation : Term → Bool} {g : Formula}

/-- An exclusion among some versions of an extension follows from one among more versions. -/
theorem holds_exclusions_of_subset (distinct : again.Nodup)
    (seen : ∀ ext, .extension ext ∈ again → .extension ext ∈ visited)
    (holds : ∀ d ∈ db.exclusions visited, d.holds valuation = true)
    (member : g ∈ db.exclusions again) : g.holds valuation = true := by
  obtain ⟨name, several, rfl⟩ := mem_exclusions.mp member
  have fewer : (db.listedVersions again name).Subperm (db.listedVersions visited name) := by
    refine List.subperm_of_subset (nodup_listedVersions distinct) fun version isListed => ?_
    obtain ⟨isVisited, listed⟩ := mem_listedVersions.mp isListed
    exact mem_listedVersions.mpr ⟨seen _ isVisited, listed⟩
  have before := holds _ (mem_exclusions.mpr ⟨name, several.trans fewer.length_le, rfl⟩)
  rw [holds_exclusion, List.countP_map] at before ⊢
  exact (fewer.countP_le _).trans before

theorem mem_relations_of_subset
    (seen : ∀ param, .parameter param ∈ again → .parameter param ∈ visited)
    (member : g ∈ relations again) : g ∈ relations visited := by
  obtain ⟨term, other, isTerm, isOther, related⟩ := mem_relations.mp member
  exact mem_relations.mpr ⟨term, other, seen _ isTerm, seen _ isOther, related⟩

end Derived

/-- Expanding an expansion succeeds and adds nothing: the result holds under the same valuations. -/
theorem expand_expand (expanded : db.expand root = .ok f) :
    ∃ g, db.expand f = .ok g ∧ ∀ valuation, g.holds valuation = f.holds valuation := by
  have compiles := (compilesFrom_of_expand expanded).expand expanded
  obtain ⟨again, distinct, visitsAgain, derivedAgain, isDerived, membersAgain⟩ :=
    derive_spec compiles
  refine ⟨Formula.allOf (f :: derivedAgain), by rw [expand, isDerived]; rfl, fun valuation => ?_⟩
  obtain ⟨visited, _, visits, derived, isExpansion, members⟩ := expand_spec expanded
  have seen : ∀ term ∈ again, (∀ width, term ≠ .xlen width) → term ∈ visited := by
    intro term isVisited noWidth
    rcases reaches_of_expand expanded ((visitsAgain term).mp isVisited) with
      reached | ⟨⟨width, is⟩, _⟩
    · exact (visits term).mpr reached
    · exact absurd is (noWidth width)
  -- whatever the second expansion derives holds where the first one holds
  have implied : f.holds valuation = true → ∀ g ∈ derivedAgain, g.holds valuation = true := by
    intro holds g member
    have before : ∀ d ∈ derived, d.holds valuation = true := by
      rw [isExpansion, Formula.holds_allOf, List.all_cons, Bool.and_eq_true,
        List.all_eq_true] at holds
      exact holds.2
    rcases (membersAgain g).mp member with ⟨term, isVisited, c, contributes, inside⟩ |
      excludes | related | isWidth
    · refine before g ((members g).mpr (.inl ⟨term, seen term isVisited ?_, c, contributes,
        inside⟩))
      rintro width rfl
      cases contributes
      cases inside
    · exact holds_exclusions_of_subset distinct (fun ext isVisited => seen _ isVisited (by simp))
        (fun d isExclusion => before d ((members d).mpr (.inr (.inl isExclusion)))) excludes
    · refine before g ((members g).mpr (.inr (.inr (.inl ?_))))
      exact mem_relations_of_subset (fun param isVisited => seen _ isVisited (by simp)) related
    · refine before g ((members g).mpr (.inr (.inr (.inr (mem_widths.mpr ?_)))))
      obtain ⟨⟨width, isVisited⟩, isBoth⟩ := mem_widths.mp isWidth
      refine ⟨?_, isBoth⟩
      rcases reaches_of_expand expanded ((visitsAgain _).mp isVisited) with
        reached | ⟨_, other, reached⟩
      · exact ⟨width, (visits _).mpr reached⟩
      · exact ⟨other, (visits _).mpr reached⟩
  rw [Bool.eq_iff_iff, Formula.holds_allOf, List.all_cons, Bool.and_eq_true, List.all_eq_true]
  exact and_iff_left_of_imp implied

/-- A range of versions, one of which requires the range again, two comparisons of a parameter that
asks for a width, and one width of the two. -/
theorem expand_expand_width :
    let one : Version := { major := 1, minor := 0, patch := 0 }
    let two : Version := { major := 2, minor := 0, patch := 0 }
    let entries : Int64 → ParamTerm := fun count => .make "ENTRIES" .value (.atLeast count)
    let db : Database := {
      extensions := [("A", [(one, none), (two, some (.extension "A" (some ">= 1.0")))])]
      parameters := [("ENTRIES", .xlen .rv32)] }
    let root := Formula.allOf [.atom (.extension (.any "A")), .atom (.parameter (entries 4)),
      .atom (.parameter (entries 8))]
    ∃ f, db.expand root = .ok f ∧ f.terms.length = 8 ∧
      ∃ g, db.expand f = .ok g ∧ ∀ valuation, g.holds valuation = f.holds valuation := by
  intro one two entries db root
  have expanded : ∃ f, db.expand root = .ok f ∧ f.terms.length = 8 := by
    refine ⟨_, by cbv, ?_⟩
    cbv
  obtain ⟨f, expanded, count⟩ := expanded
  exact ⟨f, expanded, count, expand_expand expanded⟩

end IsaLogic.Database
