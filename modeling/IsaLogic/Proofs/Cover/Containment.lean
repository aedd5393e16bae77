import Mathlib
import IsaLogic.Proofs.Cover.Expand
import IsaLogic.Proofs.Cover.Prime

/-!
# Containment is decided exactly

Whether a cover is everything is decided by splitting it on inputs that it mentions in both
senses, at most as deep as it has literals (`decides_isTautology`). Where there is no such input
the answer is read off the cubes: the cover misses the point opposite to all that it mentions,
unless one of its cubes mentions nothing (`all_isNone_of_opposite`). So a cover is found to be
everything exactly if it covers every point (`isTautology_iff`). Seen from inside a cube nothing is
left of what the cube fixes, and a cube is found covered exactly if it lies in the union of the
cover (`covered_iff`).
-/

namespace IsaLogic.Cube

section Entries

variable {cube : Cube} {point : List Bool}

/-- A point lies in a cube if it agrees with every entry. -/
theorem covers_iff (sameWidth : point.length = cube.length) :
    cube.covers point = true ↔
      ∀ input value, cube.entry input = some value → point[input]? = some value := by
  induction cube generalizing point with
  | nil => simp [entry]
  | cons first cube ih =>
    obtain _ | ⟨here, point⟩ := point
    · simp at sameWidth
    have rest := ih (by simpa using sameWidth)
    rw [covers_cons, Bool.and_eq_true, rest]
    constructor
    · rintro ⟨agrees, later⟩ input value isEntry
      cases input with
      | zero =>
        have isFirst : first = some value := by simpa [entry] using isEntry
        subst isFirst
        have same : value = here := by simpa using agrees
        rw [same]
        rfl
      | succ input => exact later input value isEntry
    · intro agrees
      refine ⟨?_, fun input value => agrees (input + 1) value⟩
      cases first with
      | none => rfl
      | some value =>
        have same : here = value := by simpa using agrees 0 value rfl
        simp [same]

theorem entry_set_self (cube : Cube) (input : Nat) : entry (cube.set input none) input = none := by
  simp only [entry, List.getElem?_set_self']
  cases cube[input]? <;> rfl

theorem entry_set_ne {input other : Nat} (differs : input ≠ other) (cube : Cube) :
    entry (cube.set input none) other = cube.entry other := by
  rw [entry, entry, List.getElem?_set_ne differs]

/-- A cube that does not mention an input does not see its value. -/
theorem covers_set (sameWidth : point.length = cube.length) {input : Nat}
    (unmentioned : cube.entry input = none) (value : Bool) :
    cube.covers (point.set input value) = cube.covers point := by
  have setWidth : (point.set input value).length = cube.length := by simpa using sameWidth
  rw [Bool.eq_iff_iff, covers_iff setWidth, covers_iff sameWidth]
  refine forall_congr' fun other => forall_congr' fun sign => imp_congr_right fun isEntry => ?_
  have differs : input ≠ other := by
    rintro rfl
    rw [unmentioned] at isEntry
    cases isEntry
  rw [List.getElem?_set_ne differs]

/-- Dropping a literal keeps the points. -/
theorem covers_drop (sameWidth : point.length = cube.length) (input : Nat)
    (lies : cube.covers point = true) : covers (cube.set input none) point = true := by
  rw [covers_iff (by simpa using sameWidth)]
  intro other value isEntry
  by_cases same : input = other
  · subst same
    rw [entry_set_self] at isEntry
    cases isEntry
  · rw [entry_set_ne same] at isEntry
    exact (covers_iff sameWidth).mp lies other value isEntry

end Entries

section Exact

variable {width : Nat} {cover : List Cube}

/-- Without an input to split on, no input is mentioned in both senses. -/
theorem not_isBinate_of_splitInput? (widths : OfWidth width cover)
    (noInput : splitInput? cover = none) {input : Nat} (inside : input < width) :
    isBinate cover input = false := by
  cases cover with
  | nil => rfl
  | cons first rest =>
    have counted := Implicant.eq_nil_of_firstBest? (Option.map_eq_none_iff.mp noInput)
    rw [List.map_eq_nil_iff, List.filter_eq_nil_iff] at counted
    have isInput : input < first.length := by rwa [widths first (List.mem_cons_self ..)]
    exact Bool.eq_false_iff.mpr (counted input (List.mem_range.mpr isInput))

/-- The point that disagrees with every literal of a cover that mentions no input in both
senses. -/
def opposite (width : Nat) (cover : List Cube) : List Bool :=
  (List.range width).map fun input => !cover.any fun cube => cube.entry input == some true

theorem getElem?_opposite {input : Nat} (inside : input < width) :
    (opposite width cover)[input]? =
      some !cover.any fun cube => cube.entry input == some true := by
  simp [opposite, inside]

/-- Only a cube without literals covers the opposite point. -/
theorem all_isNone_of_opposite (widths : OfWidth width cover)
    (unate : ∀ input < width, isBinate cover input = false) {cube : Cube} (member : cube ∈ cover)
    (lies : cube.covers (opposite width cover) = true) : cube.all Option.isNone = true := by
  have isWidth := widths cube member
  have agrees := (covers_iff (by simp [opposite, isWidth])).mp lies
  rw [List.all_eq_true]
  intro entry isEntry
  obtain ⟨input, inside, here⟩ := List.mem_iff_getElem.mp isEntry
  cases entry with
  | none => rfl
  | some sign =>
    have mentioned : cube.entry input = some sign := by simp [Cube.entry, inside, here]
    have value := agrees input sign mentioned
    rw [getElem?_opposite (isWidth ▸ inside), Option.some_inj] at value
    have notBinate := unate input (isWidth ▸ inside)
    cases sign with
    | true =>
      have some : (cover.any fun cube => cube.entry input == some true) = true :=
        List.any_eq_true.mpr ⟨cube, member, by simp [mentioned]⟩
      rw [some] at value
      cases value
    | false =>
      have positive : (cover.any fun cube => cube.entry input == some true) = true := by
        simpa using value
      have negative : (cover.any fun cube => cube.entry input == some false) = true :=
        List.any_eq_true.mpr ⟨cube, member, by simp [mentioned]⟩
      rw [isBinate, positive, negative] at notBinate
      cases notBinate

/-- Nothing that is left of a cube where an input has a value mentions the input. -/
theorem entry_of_restrict? {cube narrowed : Cube} {input : Nat} {value : Bool}
    (found : restrict? input value cube = some narrowed) : narrowed.entry input = none := by
  unfold restrict? at found
  split at found
  · cases found
  · cases found
    exact entry_set_self cube input

/-- A cover of every point is found to be everything. -/
theorem isTautology_of_union (widths : OfWidth width cover)
    (everything : ∀ point : List Bool, point.length = width → Union cover point) :
    isTautology cover = true := by
  induction literals : totalLiterals cover using Nat.strongRecOn generalizing cover with
  | ind count ih =>
    subst literals
    rw [isTautology_iff_split]
    cases found : splitInput? cover with
    | none =>
      have unate : ∀ input < width, isBinate cover input = false :=
        fun input => not_isBinate_of_splitInput? widths found
      obtain ⟨cube, member, lies⟩ := everything (opposite width cover) (by simp [opposite])
      exact .inl ⟨cube, member, all_isNone_of_opposite widths unate member lies⟩
    | some input =>
      refine .inr ⟨input, rfl, fun value => ?_⟩
      have mentioned := mentioned_of_splitInput? found
      refine ih _ (totalLiterals_restrict_lt value mentioned)
        (ofWidth_restrict? widths input value) (fun point isPoint => ?_) rfl
      obtain ⟨split, isSplit, isMentioned⟩ := mentioned
      have inside : input < point.length := by
        rw [isPoint, ← widths split isSplit]
        exact input_lt_of_entry isMentioned
      -- Moving the point to where the input has the value changes nothing that is left.
      have here : (point.set input value)[input]? = some value := List.getElem?_set_self inside
      have moved := everything (point.set input value) (by simpa using isPoint)
      rw [← union_filterMap fun cube _ => covers_restrict? here cube] at moved
      obtain ⟨narrowed, member, lies⟩ := moved
      refine ⟨narrowed, member, ?_⟩
      obtain ⟨cube, isCube, isNarrowed⟩ := List.mem_filterMap.mp member
      have narrowedWidth := ofWidth_restrict? widths input value narrowed member
      rwa [covers_set (by rw [isPoint, narrowedWidth]) (entry_of_restrict? isNarrowed)] at lies

/-- A cover is found to be everything exactly if it covers every point. -/
theorem isTautology_iff (widths : OfWidth width cover) :
    isTautology cover = true ↔ ∀ point : List Bool, point.length = width → Union cover point :=
  ⟨fun tautology _ => union_of_isTautology widths tautology, isTautology_of_union widths⟩

/-- The point with the values that a cube fixes, and otherwise as it is. -/
def force (cube : Cube) (point : List Bool) : List Bool :=
  List.zipWith (fun entry value => entry.getD value) cube point

theorem length_force {cube : Cube} {point : List Bool} (sameWidth : point.length = cube.length) :
    (force cube point).length = cube.length := by
  simp [force, sameWidth]

theorem covers_force (cube : Cube) (point : List Bool) : cube.covers (force cube point) = true := by
  induction cube generalizing point with
  | nil => rfl
  | cons entry cube ih =>
    cases point with
    | nil => simp [force]
    | cons value point =>
      change covers (entry :: cube) (entry.getD value :: force cube point) = true
      rw [covers_cons, ih]
      cases entry <;> simp

/-- Seen from inside a cube, the inputs that the cube fixes do not matter. -/
theorem covers_force_of_cofactor? {cube inside narrowed : Cube} {point : List Bool}
    (sameWidth : cube.length = inside.length) (isPoint : point.length = inside.length)
    (found : cofactor? cube inside = some narrowed) :
    narrowed.covers (force inside point) = narrowed.covers point := by
  induction cube generalizing inside narrowed point with
  | nil =>
    cases inside with
    | nil => cases found; rfl
    | cons fixed inside => simp at sameWidth
  | cons entry cube ih =>
    obtain _ | ⟨fixed, inside⟩ := inside
    · simp at sameWidth
    obtain _ | ⟨value, point⟩ := point
    · simp at isPoint
    have rest : ∀ left, cofactor? cube inside = some left →
        left.covers (force inside point) = left.covers point :=
      fun _ => ih (by simpa using sameWidth) (by simpa using isPoint)
    change covers narrowed (fixed.getD value :: force inside point) = _
    cases fixed with
    | none =>
      rw [cofactor?_none] at found
      obtain ⟨left, isLeft, rfl⟩ := Option.map_eq_some_iff.mp found
      rw [covers_cons, covers_cons, rest left isLeft]
      rfl
    | some fixed =>
      rw [cofactor?_some] at found
      split at found
      · obtain ⟨left, isLeft, rfl⟩ := Option.map_eq_some_iff.mp found
        rw [covers_cons, covers_cons, rest left isLeft]
        rfl
      · cases found

/-- A cube is found covered exactly if it lies in the union of the cover. -/
theorem covered_iff {cube : Cube} (isWidth : cube.length = width) (widths : OfWidth width cover) :
    covered cube cover = true ↔ Inside width cube cover := by
  refine ⟨inside_of_covered isWidth widths, fun inside => ?_⟩
  have sameWidth : ∀ other ∈ cover, other.length = cube.length := by
    intro other member
    rw [isWidth, widths other member]
  have narrowedWidths : OfWidth width (cover.filterMap fun other => cofactor? other cube) := by
    intro narrowed member
    obtain ⟨other, isOther, found⟩ := List.mem_filterMap.mp member
    rw [length_cofactor? (sameWidth other isOther) found, isWidth]
  refine isTautology_of_union narrowedWidths fun point isPoint => ?_
  have pointWidth : point.length = cube.length := isPoint.trans isWidth.symm
  have forced := length_force pointWidth
  have lies := inside (force cube point) (forced.trans isWidth) (covers_force cube point)
  rw [← union_filterMap fun other member =>
    covers_cofactor? (sameWidth other member) forced (covers_force cube point)] at lies
  obtain ⟨narrowed, member, covered⟩ := lies
  refine ⟨narrowed, member, ?_⟩
  obtain ⟨other, isOther, found⟩ := List.mem_filterMap.mp member
  rwa [covers_force_of_cofactor? (sameWidth other isOther) pointWidth found] at covered

end Exact

section Depth

/-- Whether a cover is everything, as the splits decide it, both halves of each one level further
down. There are at most as many levels of splits as the depth says. -/
inductive Decides : List Cube → Bool → Nat → Prop where
  | free {cover : List Cube} {depth : Nat} (free : ∃ cube ∈ cover, cube.all Option.isNone = true) :
    Decides cover true depth
  | unate {cover : List Cube} {depth : Nat}
    (notFree : ¬ ∃ cube ∈ cover, cube.all Option.isNone = true)
    (noInput : splitInput? cover = none) : Decides cover false depth
  | split {cover : List Cube} {depth input : Nat} {answer : Bool → Bool}
    (notFree : ¬ ∃ cube ∈ cover, cube.all Option.isNone = true)
    (found : splitInput? cover = some input)
    (halves : ∀ value, Decides (cover.filterMap (restrict? input value)) (answer value) depth) :
    Decides cover (answer true && answer false) (depth + 1)

/-- More levels than are needed are no harm. -/
theorem Decides.mono {cover : List Cube} {answer : Bool} {depth more : Nat}
    (decides : Decides cover answer depth) (deeper : depth ≤ more) : Decides cover answer more := by
  induction decides generalizing more with
  | free free => exact .free free
  | unate notFree noInput => exact .unate notFree noInput
  | split notFree found _ ih =>
    obtain ⟨less, rfl⟩ := Nat.exists_eq_add_one_of_ne_zero (Nat.ne_zero_of_lt deeper)
    exact .split notFree found fun value => ih value (Nat.le_of_succ_le_succ deeper)

/-- Every split takes literals away, so there are at most as many levels of splits as literals. -/
theorem decides_isTautology (cover : List Cube) :
    Decides cover (isTautology cover) (totalLiterals cover) := by
  induction literals : totalLiterals cover using Nat.strongRecOn generalizing cover with
  | ind count ih =>
    subst literals
    by_cases free : ∃ cube ∈ cover, cube.all Option.isNone = true
    · rw [(isTautology_iff_split cover).mpr (.inl free)]
      exact .free free
    cases found : splitInput? cover with
    | none =>
      have notTautology : isTautology cover = false := by
        rw [Bool.eq_false_iff, Ne, isTautology_iff_split, or_iff_right free, found]
        simp
      rw [notTautology]
      exact .unate free found
    | some input =>
      have halves : isTautology cover =
          (isTautology (cover.filterMap (restrict? input true)) &&
            isTautology (cover.filterMap (restrict? input false))) := by
        rw [Bool.eq_iff_iff, isTautology_iff_split, or_iff_right free, found]
        simp [and_comm]
      have fewer := fun value => totalLiterals_restrict_lt value (mentioned_of_splitInput? found)
      obtain ⟨less, isLess⟩ := Nat.exists_eq_add_one_of_ne_zero (Nat.ne_zero_of_lt (fewer true))
      rw [isLess] at fewer
      have below : ∀ value, Decides (cover.filterMap (restrict? input value))
          (isTautology (cover.filterMap (restrict? input value))) less := fun value =>
        (ih _ (isLess ▸ fewer value) _ rfl).mono (Nat.le_of_lt_succ (fewer value))
      rw [halves, isLess]
      exact .split free found below

end Depth

/-- Whether a cover is everything is decided within as many levels of splits as it has literals. The
answer is that it is exactly if every point lies in some cube of it, so the empty cover is not
everything; and a cube is found covered exactly if every point of it lies in some cube of the
cover. -/
theorem covered_exact {width : Nat} {cover : List Cube} (widths : OfWidth width cover) :
    Decides cover (isTautology cover) (totalLiterals cover) ∧
      (isTautology cover = true ↔
        ∀ point : List Bool, point.length = width → Union cover point) ∧
      isTautology [] = false ∧
      ∀ cube : Cube, cube.length = width → (covered cube cover = true ↔
        ∀ point : List Bool, point.length = width → cube.covers point = true →
          Union cover point) := by
  refine ⟨decides_isTautology cover, isTautology_iff widths, ?_,
    fun cube isWidth => covered_iff isWidth widths⟩
  have nothing : ¬ ∀ point : List Bool, point.length = 0 → Union [] point :=
    fun everything => by simpa [Union] using everything [] rfl
  have widthNone : OfWidth 0 [] := fun _ member => absurd member List.not_mem_nil
  exact Bool.eq_false_iff.mpr (mt (isTautology_iff widthNone).mp nothing)

/-- Three cubes over two inputs that are everything together and not without the last, and a cube
that lies in two of them but in neither. -/
theorem covered_exact_together :
    let cover : List Cube := [[some true, none], [some false, some true], [none, some false]]
    OfWidth 2 cover ∧ (∀ point : List Bool, point.length = 2 → Union cover point) ∧
      (∀ point : List Bool, point.length = 2 → covers [none, some true] point = true →
        Union (cover.take 2) point) ∧
      ¬ ∀ point : List Bool, point.length = 2 → Union (cover.take 2) point := by
  intro cover
  have widths : OfWidth 2 cover := by decide
  have fewerWidths : OfWidth 2 (cover.take 2) := by decide
  obtain ⟨_, everything, _, _⟩ := covered_exact widths
  obtain ⟨_, notEverything, _, inside⟩ := covered_exact fewerWidths
  exact ⟨widths, everything.mp (by cbv), (inside [none, some true] rfl).mp (by cbv),
    mt notEverything.mpr (Bool.eq_false_iff.mp (by cbv))⟩

end IsaLogic.Cube
