import Mathlib
import IsaLogic.Cover.Pla
import IsaLogic.Proofs.Cover.Primality

/-!
# Minimized covers are irredundant

No cube of a minimized cover lies in the union of the others (`Irredundant`). A cube
stays because the cubes beside it, those kept before it and those not yet looked at, do
not cover it. Later steps only take cubes away from beside it, so it is needed still
when all have been looked at. Such a cover repeats no cube, and sorting it makes it
strictly ascending.

There may be another irredundant cover of the same points with fewer cubes.
-/

namespace IsaLogic

namespace Cube

/-- No cube lies in the union of the cubes at the other places. -/
def Irredundant (width : Nat) (cover : List Cube) : Prop :=
  ∀ before cube after, cover = before ++ cube :: after → ¬ Inside width cube (before ++ after)

section

variable {width : Nat} {cover other : List Cube} {cube : Cube}

theorem Inside.mono (included : cover ⊆ other) (inside : Inside width cube cover) :
    Inside width cube other :=
  fun point isPoint lies => (inside point isPoint lies).mono included

theorem inside_of_mem (member : cube ∈ cover) : Inside width cube cover :=
  fun _ _ lies => ⟨cube, member, lies⟩

theorem Irredundant.tail (irredundant : Irredundant width (cube :: cover)) :
    Irredundant width cover := by
  rintro before next after rfl inside
  refine irredundant (cube :: before) next after rfl (inside.mono ?_)
  exact List.subset_cons_self cube _

/-- A repeated cube lies in its repetition. -/
theorem Irredundant.nodup (irredundant : Irredundant width cover) : cover.Nodup := by
  induction cover with
  | nil => exact List.nodup_nil
  | cons cube cover ih =>
    refine List.nodup_cons.mpr ⟨fun repeated => ?_, ih irredundant.tail⟩
    exact irredundant [] cube cover rfl (inside_of_mem repeated)

theorem Irredundant.of_perm (irredundant : Irredundant width cover) (perm : cover.Perm other) :
    Irredundant width other := by
  rintro before cube after rfl inside
  obtain ⟨first, last, rfl⟩ := List.append_of_mem (perm.mem_iff.mpr (List.mem_append_cons_self ..))
  have others : (before ++ after).Perm (first ++ last) :=
    ((List.perm_middle.symm.trans perm).trans List.perm_middle).cons_inv.symm
  exact irredundant first cube last rfl (inside.mono others.subset)

/-- The cubes kept so far are needed beside each other and those not yet looked at. -/
def Needed (width : Nat) (kept rest : List Cube) : Prop :=
  ∀ before cube after, kept = before ++ cube :: after →
    ¬ Inside width cube (before ++ after ++ rest)

theorem Needed.start (rest : List Cube) : Needed width [] rest := by
  intro before cube after split
  simp at split

theorem Needed.drop {kept rest : List Cube} (needed : Needed width kept (cube :: rest)) :
    Needed width kept rest := by
  intro before other after split inside
  refine needed before other after split (inside.mono ?_)
  exact List.append_subset.mpr ⟨List.subset_append_left _ _,
    List.Subset.trans (List.subset_cons_self cube rest) (List.subset_append_right _ _)⟩

theorem Needed.keep {kept rest : List Cube} (needed : Needed width kept (cube :: rest))
    (outside : ¬ Inside width cube (kept ++ rest)) : Needed width (kept ++ [cube]) rest := by
  intro before other after split
  -- The place is the new one at the end or one of those before.
  rcases List.eq_nil_or_concat after with rfl | ⟨after, last, rfl⟩
  · obtain ⟨rfl, same⟩ := List.append_inj' split rfl
    cases same
    rwa [List.append_nil]
  · rw [List.concat_eq_append, ← List.cons_append, ← List.append_assoc] at split
    obtain ⟨earlier, same⟩ := List.append_inj' split rfl
    cases same
    have asBefore := needed before other after earlier
    rwa [List.concat_eq_append, ← List.append_assoc, List.append_assoc, List.singleton_append]

/-- What is kept in the end is needed. -/
theorem irredundant_of_needed {kept rest : List Cube} (widths : OfWidth width (kept ++ rest))
    (needed : Needed width kept rest) : Irredundant width (irredundant kept rest) := by
  induction rest generalizing kept with
  | nil =>
    intro before cube after split
    simpa using needed before cube after split
  | cons cube rest ih =>
    have others : OfWidth width (kept ++ rest) := by
      intro other member
      refine widths other ?_
      simp only [List.mem_append, List.mem_cons] at member ⊢
      exact member.imp_right .inr
    rw [irredundant]
    split
    · exact ih others needed.drop
    · rename_i notCovered
      rw [covered_iff (widths cube (List.mem_append_cons_self ..)) others] at notCovered
      exact ih (by simpa using widths) (needed.keep notCovered)

/-- A minimized cover is irredundant and strictly ascending. -/
theorem irredundant_minimizeCover (widths : OfWidth width cover) :
    Irredundant width (minimizeCover cover) ∧
      (minimizeCover cover).Pairwise fun a b => compare a b = .lt := by
  have specificFirst := (List.mergeSort_perm (cover.foldl (addExpanded cover) [])
    fun a b => b.literals ≤ a.literals).symm
  have thinned : Irredundant width (irredundant [] ((cover.foldl (addExpanded cover) []).mergeSort
      fun a b => b.literals ≤ a.literals)) :=
    irredundant_of_needed ((Expanded.all widths).widths.of_perm specificFirst) (.start _)
  refine ⟨thinned.of_perm (List.mergeSort_perm _ _).symm, ?_⟩
  rw [minimizeCover, mergeSort_eq_ascending thinned.nodup]
  exact pairwise_ascending _

end

end Cube

/-- The minimized table has the inputs and labels of the table, and covers the same points by
strictly ascending cubes. Each of them is prime, and none lies in the union of the others. -/
theorem Pla.minimize_prime_irredundant {pla : Pla} {width : Nat}
    (widths : Cube.OfWidth width pla.cubes) :
    pla.minimize.inputs = pla.inputs ∧ pla.minimize.labels = pla.labels ∧
      Cube.OfWidth width pla.minimize.cubes ∧
      Cube.SamePoints width pla.cubes pla.minimize.cubes ∧
      (pla.minimize.cubes.Pairwise fun a b => compare a b = .lt) ∧ pla.minimize.cubes.Nodup ∧
      (∀ cube ∈ pla.minimize.cubes, Cube.Prime width (Cube.Union pla.cubes) cube) ∧
      Cube.Irredundant width pla.minimize.cubes := by
  obtain ⟨minimizedWidths, samePoints⟩ := Cube.minimizeCover_spec widths
  obtain ⟨irredundant, ascends⟩ := Cube.irredundant_minimizeCover widths
  exact ⟨rfl, rfl, minimizedWidths, samePoints, ascends, irredundant.nodup,
    fun _ => Cube.prime_of_mem_minimizeCover widths, irredundant⟩

/-- Two points merge, and the cube between the merged one and the third is dropped. -/
theorem Pla.minimize_prime_irredundant_between :
    let pla := Pla.ofLabels ["a", "b", "c"] [[some true, some true, some false],
      [some true, some true, some true], [some false, none, some true], [none, some true, some true]]
    Cube.OfWidth 3 pla.cubes ∧
      pla.minimize.cubes = [[some false, none, some true], [some true, some true, none]] ∧
      Cube.SamePoints 3 pla.cubes pla.minimize.cubes ∧
      (∀ cube ∈ pla.minimize.cubes, Cube.Prime 3 (Cube.Union pla.cubes) cube) ∧
      Cube.Irredundant 3 pla.minimize.cubes := by
  intro pla
  have widths : Cube.OfWidth 3 pla.cubes := by simp [Cube.OfWidth, pla, Pla.ofLabels]
  obtain ⟨-, -, -, samePoints, -, -, prime, irredundant⟩ := minimize_prime_irredundant widths
  exact ⟨widths, by cbv, samePoints, prime, irredundant⟩

end IsaLogic
