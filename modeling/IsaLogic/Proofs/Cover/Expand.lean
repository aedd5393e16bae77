import IsaLogic.Cover.Expand
import IsaLogic.Proofs.Cover.Cube

/-!
# Expanding and thinning keep the points

Seeing a cover from inside a cube, or from where an input has a value, changes none
of its points there. So a cover found to be everything is everything, and a cube
found covered lies in the union of the cover (`Inside`). All that the minimizer does
rests on this: expanded cubes stay inside the given cover, and a cube is dropped only
if the others cover it.
-/

namespace IsaLogic.Cube

/-- Every point of the cube that has the width lies in the union of the cover. -/
def Inside (width : Nat) (cube : Cube) (cover : List Cube) : Prop :=
  ∀ point : List Bool, point.length = width → cube.covers point = true → Union cover point

section Union

variable {width : Nat} {cover other : List Cube} {point : List Bool}

theorem Union.mono (included : cover ⊆ other) (lies : Union cover point) : Union other point := by
  obtain ⟨cube, member, covered⟩ := lies
  exact ⟨cube, included member, covered⟩

@[simp] theorem union_append :
    Union (cover ++ other) point ↔ Union cover point ∨ Union other point := by
  simp [Union, or_and_right, exists_or]

@[simp] theorem union_singleton {cube : Cube} : Union [cube] point ↔ cube.covers point = true := by
  simp [Union]

theorem SamePoints.of_perm (perm : cover.Perm other) : SamePoints width cover other :=
  fun _ _ => ⟨.mono perm.subset, .mono perm.symm.subset⟩

theorem SamePoints.trans {third : List Cube} (first : SamePoints width cover other)
    (second : SamePoints width other third) : SamePoints width cover third :=
  fun point isPoint => (first point isPoint).trans (second point isPoint)

theorem OfWidth.of_perm (widths : OfWidth width cover) (perm : cover.Perm other) :
    OfWidth width other :=
  fun cube member => widths cube (perm.symm.subset member)

/-- Narrowing the cubes of a cover in a way that keeps whether a point lies in them. -/
theorem union_filterMap {narrow : Cube → Option Cube}
    (keeps : ∀ cube ∈ cover, (narrow cube).any (·.covers point) = cube.covers point) :
    Union (cover.filterMap narrow) point ↔ Union cover point := by
  constructor
  · rintro ⟨narrowed, member, covered⟩
    obtain ⟨cube, isCube, found⟩ := List.mem_filterMap.mp member
    refine ⟨cube, isCube, ?_⟩
    rw [← keeps cube isCube, found]
    exact covered
  · rintro ⟨cube, isCube, covered⟩
    rw [← keeps cube isCube] at covered
    obtain ⟨narrowed, found, covered⟩ := (Option.any_eq_true _ _).mp covered
    exact ⟨narrowed, List.mem_filterMap.mpr ⟨cube, isCube, found⟩, covered⟩

end Union

section Tautology

theorem covers_of_all_isNone {cube : Cube} (free : cube.all Option.isNone = true)
    (point : List Bool) : cube.covers point = true := by
  induction cube generalizing point with
  | nil => rfl
  | cons entry cube ih =>
    cases point with
    | nil => simp
    | cons value point => simp_all

theorem restrict?_cons_succ (input : Nat) (value : Bool) (first : Option Bool) (cube : Cube) :
    restrict? (input + 1) value (first :: cube) = (restrict? input value cube).map (first :: ·) := by
  by_cases dropped : cube.entry input = some !value
  · have droppedAfter : entry (first :: cube) (input + 1) = some !value := dropped
    simp [restrict?, dropped, droppedAfter]
  · have keptAfter : entry (first :: cube) (input + 1) ≠ some !value := dropped
    simp [restrict?, dropped, keptAfter]

/-- Extending all that is left of a cube by one entry. -/
theorem any_covers_map_cons (entry : Option Bool) (value : Bool) (narrowed : Option Cube)
    (point : List Bool) :
    (narrowed.map (entry :: ·)).any (covers · (value :: point)) =
      (entry.all (· == value) && narrowed.any (·.covers point)) := by
  cases narrowed <;> simp

/-- Where an input has its value at a point, the point lies in what is left of a cube just if
it lies in the cube. -/
theorem covers_restrict? {input : Nat} {point : List Bool} {value : Bool}
    (here : point[input]? = some value) (cube : Cube) :
    (restrict? input value cube).any (·.covers point) = cube.covers point := by
  induction cube generalizing input point with
  | nil => simp [restrict?, entry]
  | cons first cube ih =>
    cases point with
    | nil => simp at here
    | cons value' point =>
      cases input with
      | zero =>
        cases here
        cases first with
        | none => simp [restrict?, entry]
        | some sign => cases sign <;> cases value <;> simp [restrict?, entry]
      | succ input =>
        have later : point[input]? = some value := here
        rw [restrict?_cons_succ, any_covers_map_cons, ih later, covers_cons]

theorem ofWidth_restrict? {width : Nat} {cover : List Cube} (widths : OfWidth width cover)
    (input : Nat) (value : Bool) : OfWidth width (cover.filterMap (restrict? input value)) := by
  intro narrowed member
  obtain ⟨cube, isCube, found⟩ := List.mem_filterMap.mp member
  unfold restrict? at found
  split at found
  · cases found
  · cases found
    rw [List.length_set]
    exact widths cube isCube

theorem input_lt_of_entry {cube : Cube} {input : Nat} (mentioned : (cube.entry input).isSome) :
    input < cube.length := by
  apply Nat.lt_of_not_le
  intro outside
  simp [entry, List.getElem?_eq_none outside] at mentioned

/-- A cover is found to be everything by a cube without literals, or from both values of the
input to split on. -/
theorem isTautology_iff_split (cover : List Cube) :
    isTautology cover = true ↔
      (∃ cube ∈ cover, cube.all Option.isNone = true) ∨
        ∃ input, splitInput? cover = some input ∧
          ∀ value, isTautology (cover.filterMap (restrict? input value)) = true := by
  rw [isTautology]
  split
  · rename_i free
    simp only [List.any_eq_true] at free
    simp only [free, true_or]
  · rename_i notFree
    simp only [List.any_eq_true] at notFree
    split
    · rename_i noInput
      rw [or_iff_right notFree]
      simp [noInput]
    · rename_i input found
      rw [or_iff_right notFree]
      simp [found, and_comm]

/-- A cover that is found to be everything covers every point. -/
theorem union_of_isTautology {width : Nat} {cover : List Cube} (widths : OfWidth width cover)
    (tautology : isTautology cover = true) {point : List Bool} (isPoint : point.length = width) :
    Union cover point := by
  -- Either half of a split has fewer literals.
  induction literals : totalLiterals cover using Nat.strongRecOn generalizing cover with
  | ind count ih =>
    subst literals
    rcases (isTautology_iff_split cover).mp tautology with
      ⟨cube, member, free⟩ | ⟨input, found, both⟩
    · exact ⟨cube, member, covers_of_all_isNone free point⟩
    · obtain ⟨cube, member, mentioned⟩ := mentioned_of_splitInput? found
      have inside : input < point.length := by
        rw [isPoint, ← widths cube member]
        exact input_lt_of_entry mentioned
      have here : point[input]? = some point[input] := List.getElem?_eq_getElem inside
      rw [← union_filterMap fun cube _ => covers_restrict? here cube]
      have fewer := totalLiterals_restrict_lt point[input] (mentioned_of_splitInput? found)
      exact ih _ fewer (ofWidth_restrict? widths input _) (both _) rfl

end Tautology

section Covered

theorem cofactor?_none (entry : Option Bool) (cube inside : Cube) :
    cofactor? (entry :: cube) (none :: inside) = (cofactor? cube inside).map (entry :: ·) := by
  cases entry <;> rfl

theorem cofactor?_some (entry : Option Bool) (fixed : Bool) (cube inside : Cube) :
    cofactor? (entry :: cube) (some fixed :: inside) =
      if entry.all (· == fixed) then (cofactor? cube inside).map (none :: ·) else none := by
  cases entry <;> simp [cofactor?]

/-- Inside a cube, a point lies in what is left of another cube just if it lies in that one. -/
theorem covers_cofactor? {cube inside : Cube} {point : List Bool}
    (sameWidth : cube.length = inside.length) (isPoint : point.length = inside.length)
    (lies : inside.covers point = true) :
    (cofactor? cube inside).any (·.covers point) = cube.covers point := by
  induction cube generalizing inside point with
  | nil =>
    cases inside with
    | nil => simp [cofactor?]
    | cons fixed inside => simp at sameWidth
  | cons entry cube ih =>
    obtain _ | ⟨fixed, inside⟩ := inside
    · simp at sameWidth
    obtain _ | ⟨value, point⟩ := point
    · simp at isPoint
    rw [covers_cons, Bool.and_eq_true] at lies
    have rest := ih (by simpa using sameWidth) (by simpa using isPoint) lies.2
    rw [covers_cons, ← rest]
    cases fixed with
    | none => rw [cofactor?_none, any_covers_map_cons]
    | some fixed =>
      have atPoint : fixed = value := by simpa using lies.1
      subst atPoint
      rw [cofactor?_some]
      cases agrees : entry.all (· == fixed)
      · rfl
      · simpa using any_covers_map_cons none fixed (cofactor? cube inside) point

theorem length_cofactor? {cube inside narrowed : Cube} (sameWidth : cube.length = inside.length)
    (found : cofactor? cube inside = some narrowed) : narrowed.length = inside.length := by
  induction cube generalizing inside narrowed with
  | nil =>
    cases inside with
    | nil => cases found; rfl
    | cons fixed inside => simp at sameWidth
  | cons entry cube ih =>
    obtain _ | ⟨fixed, inside⟩ := inside
    · simp at sameWidth
    have rest : ∀ narrowed, cofactor? cube inside = some narrowed →
        narrowed.length = inside.length := fun _ => ih (by simpa using sameWidth)
    cases fixed with
    | none =>
      rw [cofactor?_none] at found
      obtain ⟨left, isLeft, rfl⟩ := Option.map_eq_some_iff.mp found
      simp [rest left isLeft]
    | some fixed =>
      rw [cofactor?_some] at found
      split at found
      · obtain ⟨left, isLeft, rfl⟩ := Option.map_eq_some_iff.mp found
        simp [rest left isLeft]
      · cases found

/-- A cube that is found covered lies in the union of the cover. -/
theorem inside_of_covered {width : Nat} {cube : Cube} {cover : List Cube}
    (isWidth : cube.length = width) (widths : OfWidth width cover)
    (covered : covered cube cover = true) : Inside width cube cover := by
  intro point isPoint lies
  have sameWidth : ∀ other ∈ cover, other.length = cube.length := by
    intro other member
    rw [isWidth, widths other member]
  rw [← union_filterMap fun other member =>
    covers_cofactor? (sameWidth other member) (isPoint.trans isWidth.symm) lies]
  refine union_of_isTautology ?_ covered isPoint
  intro narrowed member
  obtain ⟨other, isOther, found⟩ := List.mem_filterMap.mp member
  rw [length_cofactor? (sameWidth other isOther) found, isWidth]

end Covered

section Expand

variable {width : Nat} {cover : List Cube}

/-- Dropping a literal only adds points. -/
theorem covers_drop_literal (done rest : Cube) (value : Bool) {point : List Bool}
    (lies : (done ++ some value :: rest).covers point = true) :
    (done ++ none :: rest).covers point = true := by
  induction done generalizing point with
  | nil =>
    cases point with
    | nil => simp
    | cons first point => simp_all
  | cons entry done ih =>
    cases point with
    | nil => simp
    | cons first point => simp_all

/-- Expanding a cube inside the cover gives one of the same width that has all of its points
and is still inside the cover. -/
theorem expand_spec (widths : OfWidth width cover) (done rest : Cube)
    (isWidth : (done ++ rest).length = width) (inside : Inside width (done ++ rest) cover) :
    (expand cover done rest).length = width ∧ Inside width (expand cover done rest) cover ∧
      ∀ point, (done ++ rest).covers point = true →
        (expand cover done rest).covers point = true := by
  induction rest generalizing done with
  | nil =>
    rw [List.append_nil] at isWidth inside ⊢
    exact ⟨isWidth, inside, fun _ lies => lies⟩
  | cons entry rest ih =>
    cases entry with
    | none =>
      have next := ih (done ++ [none]) (by simpa using isWidth) (by simpa using inside)
      simpa [expand] using next
    | some value =>
      rw [expand]
      split
      · rename_i isCovered
        have dropped : (done ++ none :: rest).length = width := by simpa using isWidth
        have stays := inside_of_covered dropped widths isCovered
        obtain ⟨lengths, insideNext, grows⟩ :=
          ih (done ++ [none]) (by simpa using dropped) (by simpa using stays)
        refine ⟨lengths, insideNext, fun point lies => grows point ?_⟩
        simpa using covers_drop_literal done rest value lies
      · have next := ih (done ++ [some value]) (by simpa using isWidth) (by simpa using inside)
        simpa using next

theorem covers_of_within {inner outer : Cube} (sameWidth : inner.length = outer.length)
    (isWithin : inner.within outer = true) {point : List Bool}
    (lies : inner.covers point = true) : outer.covers point = true := by
  induction inner generalizing outer point with
  | nil =>
    cases outer with
    | nil => rfl
    | cons entry outer => simp at sameWidth
  | cons entry inner ih =>
    obtain _ | ⟨outerEntry, outer⟩ := outer
    · rfl
    cases point with
    | nil => simp
    | cons value point =>
      rw [covers_cons, Bool.and_eq_true] at lies ⊢
      have both : (outerEntry.isNone || entry == outerEntry) = true ∧
          within inner outer = true := by
        simpa [within] using isWithin
      refine ⟨?_, ih (by simpa using sameWidth) both.2 lies.2⟩
      cases outerEntry with
      | none => rfl
      | some sign =>
        have same : entry = some sign := by simpa using both.1
        exact same ▸ lies.1

/-- Cubes inside the cover that have all points of the cubes taken so far. -/
structure Expanded (width : Nat) (cover taken found : List Cube) : Prop where
  widths : OfWidth width found
  inside : ∀ cube ∈ found, Inside width cube cover
  keeps : ∀ point : List Bool, point.length = width → Union taken point → Union found point

theorem Expanded.start : Expanded width cover [] [] where
  widths _ member := nomatch member
  inside _ member := nomatch member
  keeps _ _ lies := lies

theorem Expanded.add {taken found : List Cube} (expanded : Expanded width cover taken found)
    (widths : OfWidth width cover) {cube : Cube} (isCube : cube ∈ cover) :
    Expanded width cover (taken ++ [cube]) (addExpanded cover found cube) := by
  unfold addExpanded
  split
  · rename_i already
    obtain ⟨outer, isOuter, isWithin⟩ := List.any_eq_true.mp already
    refine ⟨expanded.widths, expanded.inside, fun point isPoint lies => ?_⟩
    rcases union_append.mp lies with taken | here
    · exact expanded.keeps point isPoint taken
    · have sameWidth : cube.length = outer.length := by
        rw [widths cube isCube, expanded.widths outer isOuter]
      exact ⟨outer, isOuter, covers_of_within sameWidth isWithin (union_singleton.mp here)⟩
  · have own : Inside width cube cover := fun point _ lies => ⟨cube, isCube, lies⟩
    obtain ⟨isWidth, inside, grows⟩ := expand_spec widths [] cube (widths cube isCube) own
    dsimp only
    generalize expand cover [] cube = grown at isWidth inside grows
    have replaced : ∀ other ∈ found.filter (!·.within grown) ++ [grown],
        other ∈ found ∨ other = grown := by
      intro other member
      rcases List.mem_append.mp member with kept | isGrown
      · exact .inl (List.mem_filter.mp kept).1
      · exact .inr (List.mem_singleton.mp isGrown)
    refine ⟨fun other member => ?_, fun other member => ?_, fun point isPoint lies => ?_⟩
    · rcases replaced other member with kept | rfl
      · exact expanded.widths other kept
      · exact isWidth
    · rcases replaced other member with kept | rfl
      · exact expanded.inside other kept
      · exact inside
    · rw [union_append, union_singleton] at lies ⊢
      rcases lies with taken | here
      · obtain ⟨other, isOther, covered⟩ := expanded.keeps point isPoint taken
        -- A cube makes way only for one that has its points.
        cases isWithin : other.within grown
        · exact .inl ⟨other, List.mem_filter.mpr ⟨isOther, by simp [isWithin]⟩, covered⟩
        · have sameWidth : other.length = grown.length := by
            rw [expanded.widths other isOther, isWidth]
          exact .inr (covers_of_within sameWidth isWithin covered)
      · exact .inr (grows point here)

theorem Expanded.foldl (widths : OfWidth width cover) {rest taken found : List Cube}
    (expanded : Expanded width cover taken found) (included : rest ⊆ cover) :
    Expanded width cover (taken ++ rest) (rest.foldl (addExpanded cover) found) := by
  induction rest generalizing taken found with
  | nil => simpa using expanded
  | cons cube rest ih =>
    have next := ih (expanded.add widths (included (List.mem_cons_self ..)))
      fun other member => included (List.mem_cons_of_mem _ member)
    simpa using next

/-- All cubes of the cover expanded. -/
theorem Expanded.all (widths : OfWidth width cover) :
    Expanded width cover cover (cover.foldl (addExpanded cover) []) :=
  Expanded.start.foldl widths fun _ member => member

end Expand

section Minimize

variable {width : Nat} {cover : List Cube}

/-- A cube inside the others adds no points. -/
theorem SamePoints.drop {kept rest : List Cube} {cube : Cube}
    (inside : Inside width cube (kept ++ rest)) :
    SamePoints width (kept ++ cube :: rest) (kept ++ rest) := by
  intro point isPoint
  have ownPoints := inside point isPoint
  rw [union_append] at ownPoints
  rw [union_append, union_append, ← List.singleton_append, union_append, union_singleton]
  constructor
  · rintro (early | here | late)
    · exact .inl early
    · exact ownPoints here
    · exact .inr late
  · exact Or.imp_right .inr

/-- Dropping covered cubes keeps the points. -/
theorem irredundant_spec (kept rest : List Cube) (widths : OfWidth width (kept ++ rest)) :
    OfWidth width (irredundant kept rest) ∧
      SamePoints width (kept ++ rest) (irredundant kept rest) := by
  induction rest generalizing kept with
  | nil =>
    rw [List.append_nil] at widths ⊢
    exact ⟨widths, fun _ _ => Iff.rfl⟩
  | cons cube rest ih =>
    rw [irredundant]
    split
    · rename_i isCovered
      have isWidth : cube.length = width := widths cube (by simp)
      have othersWidth : OfWidth width (kept ++ rest) := by
        intro other member
        refine widths other ?_
        simp only [List.mem_append, List.mem_cons] at member ⊢
        exact member.imp_right .inr
      have inside := inside_of_covered isWidth othersWidth isCovered
      obtain ⟨widthsNext, same⟩ := ih kept othersWidth
      exact ⟨widthsNext, (SamePoints.drop inside).trans same⟩
    · have next := ih (kept ++ [cube]) (by simpa using widths)
      simpa using next

/-- The minimized cover has the width and exactly the points of the cover. -/
theorem minimizeCover_spec (widths : OfWidth width cover) :
    OfWidth width (minimizeCover cover) ∧ SamePoints width cover (minimizeCover cover) := by
  have expanded := Expanded.all widths
  have same : SamePoints width cover (cover.foldl (addExpanded cover) []) := by
    intro point isPoint
    refine ⟨expanded.keeps point isPoint, ?_⟩
    rintro ⟨cube, member, covered⟩
    exact expanded.inside cube member point isPoint covered
  have sorted := (List.mergeSort_perm (cover.foldl (addExpanded cover) [])
    fun a b => b.literals ≤ a.literals).symm
  obtain ⟨widthsThin, sameThin⟩ := irredundant_spec [] _ (expanded.widths.of_perm sorted)
  have sortedThin := (List.mergeSort_perm (irredundant [] ((cover.foldl (addExpanded cover)
    []).mergeSort fun a b => b.literals ≤ a.literals)) fun a b => (compare a b).isLE).symm
  exact ⟨widthsThin.of_perm sortedThin,
    ((same.trans (.of_perm sorted)).trans sameThin).trans (.of_perm sortedThin)⟩

end Minimize

end IsaLogic.Cube
